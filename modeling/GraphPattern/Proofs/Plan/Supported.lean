import GraphPattern.Proofs.Plan.Solution

/-!
# Shapes that no plan solves

An end of an edge that is not known stays so, an annotated self-loop stays one, and at an annotated
vertex the same edges end until it is absorbed, whatever is merged around it. None of these
obstacles is in a consolidated query, so there was none in a query that a plan solves.
-/

namespace GraphPattern

open Rule

namespace Query

variable {q q' : Query} {e f v u out : ItemId} {s t : Bool} {rule : Rule} {a : Application}

/-- One annotated edge joins the annotated vertex to another one, which is not annotated. -/
structure Hangs (q : Query) (v e : ItemId) (s : Bool) (u : ItemId) : Prop where
  /-- The annotated vertex is here. -/
  here : q.Ends e s v
  /-- The other one is at the other end. -/
  there : q.Ends e (!s) u
  /-- They are different. -/
  ne : u ≠ v
  /-- The edge is annotated. -/
  edge : q.itemBounds e ≠ none
  /-- The other vertex is not. -/
  bare : q.itemBounds u = none
  /-- No other edge ends at the annotated vertex. -/
  alone : ∀ {f t}, q.Ends f t v → f = e

/-- No obstacle stands in the query that no reduction removes. -/
structure Supported (q : Query) : Prop where
  /-- Both ends of every edge are known. -/
  closed : q.Closed
  /-- A self-loop is not annotated. -/
  loops : ∀ {e v}, q.Ends e true v → q.Ends e false v → q.itemBounds e = none
  /-- An annotated vertex hangs on another one. -/
  hangs : ∀ {v}, q.IsVertex v → q.itemBounds v ≠ none → ∃ e s u, q.Hangs v e s u

/-- What can be absorbed hangs on what absorbs it. -/
theorem Absorbs.hangs (h : q.Absorbs u e s v) : q.Hangs v e s u :=
  ⟨h.far,h.near,h.ne,h.edge,h.settled.itemBounds,h.alone⟩

/-- An annotated vertex that hangs on another one lists one edge. -/
theorem Hangs.vertexEdges (h : q.Hangs v e s u) (hq : q.WellFormed) :
    q.vertexEdges v = .ok [e] := by
  obtain ⟨x,hx,hv⟩ := h.here.isVertex hq
  obtain ⟨es,hes⟩ := Item.isVertex_iff.mp hv
  have hmem : ∀ f, f ∈ es ↔ f = e := fun f => by
    rw [hq.incident.joined hx hes,← exists_ends_iff]
    exact ⟨fun ⟨_,hf⟩ => h.alone hf,fun hf => ⟨s,hf ▸ h.here⟩⟩
  have hlist : es = [e] := List.perm_singleton.mp ((List.perm_ext_iff_of_nodup
    (hq.incident.nodup_edges hx hes) (List.nodup_singleton e)).mpr fun f => by
      rw [hmem,List.mem_singleton])
  exact vertexEdges_of_some hx (hlist ▸ hes)

/-- The vertex at an end of an edge that is known. -/
theorem Ends.at? {y : Item} {ends : EdgeEnds} (h : q.Ends e s v) (hy : q.item? e = some y)
    (he : y.ends? = some ends) : ends.at? s = some v := by
  obtain ⟨y',ends',hy',he',hv⟩ := h
  rw [hy] at hy'
  cases hy'
  rw [he] at he'
  cases he'
  exact hv

/-- Nothing in a consolidated query is an obstacle. -/
theorem supported_of_consolidated (h : q.WellFormed) (hc : q.isConsolidated = true) :
    q.Supported := by
  obtain ⟨w,x,hx,hs,honly,-,-⟩ := eq_of_consolidated h hc
  have hedge : ∀ {e}, ¬q.IsEdge e := not_isEdge_of_consolidated h hc
  refine ⟨fun he => absurd he hedge,fun he => absurd he.isEdge hedge,fun {v} hv hb => ?_⟩
  obtain ⟨y,hy,-⟩ := hv
  cases honly v y hy
  rw [itemBounds_of_some hx,hs.bounds] at hb
  exact absurd rfl hb

section Back

variable (hr : Reduction q rule a q' out) (hq : q.WellFormed) (h : q'.Supported)

include hr hq h

/-- An end that is not known stays so. -/
theorem Supported.closed_back : q.Closed := by
  intro e he s
  by_cases hm : e ∈ a.items
  · cases (hr.merges hq).goes hq he hm with
    | loop ends => exact ⟨_,ends s⟩
    | @join t _ _ near far =>
      rcases eq_or_opposite s t with rfl|rfl
      · exact ⟨_,near⟩
      · exact ⟨_,far⟩
    | @absorb _ _ t ha =>
      rcases eq_or_opposite s t with rfl|rfl
      · exact ⟨_,ha.far⟩
      · exact ⟨_,ha.near⟩
  · have hc := hr.changes hq
    obtain ⟨v',hv'⟩ := h.closed (hc.isEdge_iff.mpr ⟨he,hm⟩) s
    obtain ⟨-,v,hv,-⟩ := hc.ends_iff.mp hv'
    exact ⟨v,hv⟩

/-- An annotated self-loop stays one. -/
theorem Supported.loops_back (hs : q.Ends e true v) (ht : q.Ends e false v) :
    q.itemBounds e = none := by
  by_cases hm : e ∈ a.items
  · -- Of the edges that go only a self-loop has one vertex at both ends.
    have hends : ∀ {s u}, q.Ends e s u → u = v := fun {s u} hu => by
      cases s
      · exact hu.unique ht
      · exact hu.unique hs
    cases (hr.merges hq).goes hq hs.isEdge hm with
    | loop ends settled bounds => exact bounds
    | join near far ne => exact absurd ((hends near).trans (hends far).symm) ne
    | absorb ha => exact absurd ((hends ha.near).trans (hends ha.far).symm) ha.ne
  · have hc := hr.changes hq
    obtain ⟨y,hy,-⟩ := hs.isEdge
    rw [← (hc.same hy hm).2.1]
    exact h.loops (hc.ends hs hm) (hc.ends ht hm)

/-- At an annotated vertex the same edges end until it is absorbed. -/
theorem Supported.hangs_back (hv : q.IsVertex v) (hb : q.itemBounds v ≠ none) :
    ∃ e s u, q.Hangs v e s u := by
  by_cases hm : v ∈ a.items
  · obtain ⟨e,s,-,ha⟩ := (hr.merges hq).absorbs hv hb hm
    exact ⟨e,s,out,ha.hangs⟩
  · have hc := hr.changes hq
    obtain ⟨x,hx,-⟩ := id hv
    obtain ⟨hv',hb',-⟩ := vertex_stays hr hq hv hm
    obtain ⟨e,s,u',hh⟩ := h.hangs hv' (hb' ▸ hb)
    obtain ⟨hem,w,hw,hwv⟩ := hc.ends_iff.mp hh.here
    obtain ⟨-,u,hu,rfl⟩ := hc.ends_iff.mp hh.there
    cases (hc.merged_eq_iff hx hm).mp hwv.symm
    obtain ⟨y,hy,-⟩ := hw.isEdge
    obtain ⟨z,hz,-⟩ := hu.isVertex hq
    refine ⟨e,s,u,hw,hu,fun huv => ?_,(hc.same hy hem).2.1 ▸ hh.edge,?_,fun hf => ?_⟩
    · exact hh.ne ((hc.merged_eq_iff hx hm).mpr huv)
    · by_contra hbu
      by_cases hum : u ∈ a.items
      · -- The other vertex would be absorbed, along the only edge that ends there.
        obtain ⟨f,r,hf,ha⟩ := (hr.merges hq).absorbs (hu.isVertex hq) hbu hum
        exact hem (ha.alone hu ▸ hf)
      · have hbare := hh.bare
        rw [ItemId.merged_of_not_mem hum,(hc.same hz hum).2.1] at hbare
        exact hbu hbare
    · exact hh.alone (edge_stays hr hq hf hm).2

/-- No reduction removes an obstacle. -/
theorem Supported.back : q.Supported where
  closed := h.closed_back hr hq
  loops := h.loops_back hr hq
  hangs := h.hangs_back hr hq

end Back

/-- No obstacle stands in a query that can be solved. -/
theorem Solvable.supported (hs : q.Solvable) (h : q.WellFormed) : q.Supported :=
  hs.back h supported_of_consolidated fun hq hr hq' => hq'.back hr hq

end Query

namespace Plan

variable {rules : List Rule} {config : SearchConfig} {q : Query} {plan : Plan}

/-- A query for which a plan is solved can be solved. -/
theorem solvable_of_isSolved (hr : Rule.AllBuiltIn rules) (hred : q.Reducible)
    (h : ofQuery rules config q = .ok plan) (hs : plan.isSolved = true) : q.Solvable := by
  obtain ⟨hf,F,es,hfirst,-⟩ := first_of_isSolved hr hred h hs
  obtain ⟨st,hst,rfl⟩ := hf.start
  exact hfirst.leads.solvable hr hst hred.wellFormed

/-- Unsupported shapes are never solved. For every query that is built, valid or not, all rules of
the library and every configuration: if the plan is solved, then both ends of every edge are live
vertices, no self-loop is annotated, and every annotated vertex has exactly one incident edge, which
is annotated and leads to another vertex without annotation. -/
theorem supported_of_isSolved {d : Description} (hq : d.build = .ok q)
    (hr : ∀ rule ∈ rules, rule ∈ Rule.builtIn) (h : ofQuery rules config q = .ok plan)
    (hs : plan.isSolved = true) :
    (∀ {e y ends}, q.item? e = some y → y.ends? = some ends →
      ∃ a b, ends.both? = some (a,b) ∧ q.IsVertex a ∧ q.IsVertex b ∧
        (y.bounds ≠ none → a ≠ b)) ∧
    ∀ {v x}, q.item? v = some x → x.isVertex = true → x.bounds ≠ none →
      ∃ e y ends u z, q.vertexEdges v = .ok [e] ∧ q.item? e = some y ∧ y.ends? = some ends ∧
        y.bounds ≠ none ∧ ends.opposite? v = some u ∧ u ≠ v ∧ q.item? u = some z ∧
          z.isVertex = true ∧ z.bounds = none := by
  have hw := Description.written_build hq
  have hsup := (solvable_of_isSolved hr hw.reducible h hs).supported hw.wellFormed
  constructor
  · intro e y ends hy he
    have hclosed := hsup.closed (Query.isEdge_iff.mpr ⟨y,ends,hy,he⟩)
    obtain ⟨a,ha⟩ := hclosed true
    obtain ⟨b,hb⟩ := hclosed false
    refine ⟨a,b,EdgeEnds.both?_eq_some.mpr ⟨ha.at? hy he,hb.at? hy he⟩,ha.isVertex hw.wellFormed,
      hb.isVertex hw.wellFormed,fun hbounds hab => hbounds ?_⟩
    rw [← Query.itemBounds_of_some hy]
    exact hsup.loops ha (hab ▸ hb)
  · intro v x hx hv hb
    obtain ⟨e,s,u,hh⟩ := hsup.hangs ⟨x,hx,hv⟩ (by rwa [Query.itemBounds_of_some hx])
    obtain ⟨y,ends,hy,he,hev⟩ := id hh.here
    obtain ⟨z,hz,hzv⟩ := hh.there.isVertex hw.wellFormed
    exact ⟨e,y,ends,u,z,hh.vertexEdges hw.wellFormed,hy,he,Query.itemBounds_of_some hy ▸ hh.edge,
      EdgeEnds.opposite?_iff.mpr ⟨s,hev,hh.there.at? hy he⟩,hh.ne,hz,hzv,
      Query.itemBounds_of_some hz ▸ hh.bare⟩

/-- The vertex that occurs at most twice has one edge, and its plan is solved. -/
theorem supported_of_isSolved_limited : ∃ q plan v x, limited.build = .ok q ∧
    ofQuery Rule.builtIn .standard q = .ok plan ∧ plan.isSolved = true ∧ q.item? v = some x ∧
      x.isVertex = true ∧ x.bounds ≠ none ∧ ∃ e, q.vertexEdges v = .ok [e] := by
  obtain ⟨q,plan,hq,-,hplan,hc⟩ := exists_planned (d:=limited) (c:=fun q plan =>
      plan.isSolved && (q.item? ⟨1⟩).any fun x => x.isVertex && x.bounds.isSome) (by
    rw [Description.build,Description.addAll_flat rfl]
    decide +kernel)
  simp only [Bool.and_eq_true,Option.any_eq_true] at hc
  obtain ⟨hs,x,hx,hv,hb⟩ := hc
  have hb := Option.isSome_iff_ne_none.mp hb
  obtain ⟨e,-,-,-,-,he,-⟩ := (supported_of_isSolved hq (fun _ hr => hr) hplan hs).2 hx hv hb
  exact ⟨q,plan,⟨1⟩,x,hq,hplan,hs,hx,hv,hb,e,he⟩

end Plan

end GraphPattern
