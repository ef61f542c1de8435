import GraphPattern.Proofs.Query.Gauge
import GraphPattern.Proofs.Rule.Ends
import GraphPattern.Proofs.Table
import GraphPattern.Query.Component
import Mathlib.Data.List.Pairwise
import Mathlib.Data.List.Sort

/-!
# Parts and chains of edges

Two vertices are in one tree exactly if a chain of edges joins them, so the parts of a query are the
sets of vertices between which chains of edges lead, in the order in which their first vertices are
listed.
-/

namespace GraphPattern.Query

open Relation

variable {q : Query} {vertices part : List ItemId} {parts : List (List ItemId)} {e v u : ItemId}

/-- An edge with both ends known leads from one vertex to another. -/
def EdgeFrom (q : Query) (v u : ItemId) : Prop := ∃ e, q.Ends e true v ∧ q.Ends e false u

/-- A chain of edges joins two vertices. Each edge may be followed in either direction. -/
def Chained (q : Query) : ItemId → ItemId → Prop := ReflTransGen (SymmGen q.EdgeFrom)

theorem chained_eq (q : Query) : q.Chained = EqvGen q.EdgeFrom := EqvGen.reflTransGen_symmGen _

theorem equivalence_chained (q : Query) : Equivalence q.Chained :=
  q.chained_eq ▸ EqvGen.is_equivalence _

theorem EdgeFrom.chained (h : q.EdgeFrom v u) : q.Chained v u := .single (.inl h)

/-- What a vertex of a well-formed query is joined to is a vertex. -/
theorem Chained.mem_vertices (h : q.Chained v u) (hq : q.WellFormed)
    (hv : v ∈ q.vertices .whole) : u ∈ q.vertices .whole := by
  induction h with
  | refl => exact hv
  | tail _ hstep _ =>
    rcases hstep with ⟨e,-,hu⟩|⟨e,hu,-⟩
    · exact hq.mem_vertices.mpr (hu.isVertex hq)
    · exact hq.mem_vertices.mpr (hu.isVertex hq)

/-! ## Trees of joined vertices -/

/-- An edge has its places when both ends are known and listed. -/
theorem places?_eq_some {i k : Fin vertices.length} (hn : vertices.Nodup) :
    q.places? vertices e = some (i,k) ↔ q.Ends e true vertices[i] ∧ q.Ends e false vertices[k] := by
  have hplace : ∀ {a : ItemId} {j : Fin vertices.length},
      vertices.finIdxOf? a = some j ↔ vertices[j] = a := fun {a j} => by
    rw [List.finIdxOf?_eq_some_iff]
    refine ⟨And.left,fun ha => ⟨ha,fun m hm he => ?_⟩⟩
    have := (hn.getElem_inj_iff).mp (he.trans ha.symm)
    exact absurd (Fin.ext this) (Fin.ne_of_lt hm)
  constructor
  · intro h
    obtain ⟨y,hy,h⟩ := Option.bind_eq_some_iff.mp h
    obtain ⟨ends,he,h⟩ := Option.bind_eq_some_iff.mp h
    obtain ⟨⟨a,b⟩,hab,h⟩ := Option.bind_eq_some_iff.mp h
    obtain ⟨i',hi,h⟩ := Option.bind_eq_some_iff.mp h
    obtain ⟨k',hk,h⟩ := Option.bind_eq_some_iff.mp h
    cases h
    obtain ⟨hs,ht⟩ := EdgeEnds.both?_eq_some.mp hab
    rw [hplace.mp hi,hplace.mp hk]
    exact ⟨⟨y,ends,hy,he,hs⟩,⟨y,ends,hy,he,ht⟩⟩
  · rintro ⟨⟨y,ends,hy,he,hs⟩,⟨y',ends',hy',he',ht⟩⟩
    rw [hy] at hy'
    cases hy'
    rw [he] at he'
    cases he'
    simp only [places?,hy,he,EdgeEnds.both?_eq_some.mpr ⟨hs,ht⟩,hplace.mpr rfl,Option.bind_eq_bind,
      Option.bind_some,Option.pure_def]

/-- The trees into which all edges of a query join all its vertices. -/
abbrev trees (q : Query) : Forest (q.vertices .whole).length :=
  q.treesOf (q.vertices .whole) (q.edges .whole)

/-- The ends of an edge have one root. -/
theorem EdgeFrom.root_eq (hq : q.WellFormed) {i k : Fin (q.vertices .whole).length}
    (h : q.EdgeFrom (q.vertices .whole)[i] (q.vertices .whole)[k]) :
    q.trees.root i = q.trees.root k := by
  obtain ⟨e,hv,hu⟩ := h
  exact Forest.root_joinAll_of_mem (List.mem_filterMap.mpr ⟨e,hq.mem_edges.mpr hv.isEdge,
    (places?_eq_some hq.nodup_vertices).mpr ⟨hv,hu⟩⟩)

/-- Two vertices of a well-formed query have one root exactly if a chain of edges joins them. -/
theorem root_trees_eq_iff (h : q.WellFormed) {i k : Fin (q.vertices .whole).length} :
    q.trees.root i = q.trees.root k ↔
      q.Chained (q.vertices .whole)[i] (q.vertices .whole)[k] := by
  have hn := h.nodup_vertices
  have hE := q.equivalence_chained
  constructor
  · refine Forest.equivalent_of_root_joinAll
      (E:=fun i k => q.Chained (q.vertices .whole)[i] (q.vertices .whole)[k])
      ⟨fun _ => hE.refl _,hE.symm,hE.trans⟩ (fun {i k} hik => ?_) fun link hlink => ?_
    · rw [Forest.root_single,Forest.root_single] at hik
      rw [hik]
      exact hE.refl _
    · obtain ⟨e,-,he⟩ := List.mem_filterMap.mp hlink
      exact EdgeFrom.chained ⟨e,(places?_eq_some hn).mp he⟩
  · -- Every edge of the chain keeps the root, by induction from the first vertex on.
    intro hchain
    generalize hu : (q.vertices .whole)[k] = u at hchain
    induction hchain generalizing k with
    | refl => rw [Fin.ext ((hn.getElem_inj_iff).mp hu)]
    | @tail w u hbefore hstep ih =>
      obtain ⟨j,rfl⟩ := List.mem_iff_get.mp
        (Chained.mem_vertices hbefore h (List.getElem_mem i.isLt))
      refine (ih rfl).trans ?_
      subst hu
      rcases hstep with hstep|hstep
      · exact hstep.root_eq h
      · exact (hstep.root_eq h).symm

/-! ## Parts -/

/-- The vertices of a query, each behind its root. -/
def rooted (q : Query) : List (Fin (q.vertices .whole).length × ItemId) :=
  (List.finRange _).map fun i => (q.trees.root i,(q.vertices .whole)[i])

theorem map_snd_rooted (q : Query) : q.rooted.map Prod.snd = q.vertices .whole := by
  rw [rooted,List.map_map]
  exact List.map_getElem_finRange _

/-- The parts of a query are the groups of its vertices under their roots. -/
theorem components_eq (q : Query) :
    q.components = (groups q.rooted).map fun part => orderedSet part.2 := by
  have hzip : ((List.finRange _).map q.trees.root).zip (q.vertices .whole) = q.rooted :=
    List.ext_getElem (by simp [rooted]) fun m _ _ => by simp [rooted]
  rw [components,partsOf,Forest.roots_eq,hzip]

/-- The vertices with the root of a vertex are those that chains of edges join to it. -/
theorem mem_rooted (h : q.WellFormed) {i : Fin (q.vertices .whole).length} :
    (q.trees.root i,u) ∈ q.rooted ↔ q.Chained (q.vertices .whole)[i] u := by
  rw [rooted,List.mem_map]
  constructor
  · rintro ⟨k,-,hk⟩
    obtain ⟨hroot,rfl⟩ := Prod.mk.inj hk
    exact (root_trees_eq_iff h).mp hroot.symm
  · intro hu
    obtain ⟨k,rfl⟩ := List.mem_iff_get.mp (hu.mem_vertices h (List.getElem_mem i.isLt))
    exact ⟨k,List.mem_finRange k,Prod.ext ((root_trees_eq_iff h).mpr hu).symm rfl⟩

/-- The list is the part of a vertex: what chains of edges join to it, in increasing order. -/
structure IsPart (q : Query) (v : ItemId) (part : List ItemId) : Prop where
  /-- The vertices stand in increasing order, each once. -/
  ascending : part.Pairwise (· < ·)
  /-- They are those that chains of edges join to the vertex. -/
  mem_iff : ∀ u, u ∈ part ↔ q.Chained v u

/-- A vertex has one part. -/
theorem IsPart.eq {part' : List ItemId} (h : q.IsPart v part) (h' : q.IsPart v part') :
    part = part' :=
  h.ascending.eq_of_mem_iff h'.ascending fun u => (h.mem_iff u).trans (h'.mem_iff u).symm

/-- The part of a vertex is the part of all its vertices. -/
theorem IsPart.of_mem (h : q.IsPart v part) (hu : u ∈ part) : q.IsPart u part where
  ascending := h.ascending
  mem_iff w := by
    have hvu := (h.mem_iff u).mp hu
    rw [h.mem_iff]
    exact ⟨q.equivalence_chained.trans (q.equivalence_chained.symm hvu),
      q.equivalence_chained.trans hvu⟩

theorem IsPart.mem (h : q.IsPart v part) : v ∈ part := (h.mem_iff v).mpr .refl

/-- The vertices under the root of a vertex are its part. -/
theorem isPart_group (h : q.WellFormed) (i : Fin (q.vertices .whole).length) :
    q.IsPart (q.vertices .whole)[i]
      (orderedSet ((q.rooted.filter fun e => e.1 = q.trees.root i).map Prod.snd)) where
  ascending := pairwise_orderedSet _
  mem_iff u := by
    rw [← mem_rooted h,mem_orderedSet]
    simp

/-- Every part of a well-formed query is the part of a vertex. -/
theorem exists_isPart_of_mem (h : q.WellFormed) (hp : part ∈ q.components) :
    ∃ v ∈ q.vertices .whole, q.IsPart v part := by
  rw [components_eq] at hp
  obtain ⟨g,hg,rfl⟩ := List.mem_map.mp hp
  obtain ⟨hr,hunder⟩ := mem_groups.mp hg
  obtain ⟨_,he,hr⟩ := List.mem_map.mp hr
  obtain ⟨i,-,rfl⟩ := List.mem_map.mp he
  refine ⟨(q.vertices .whole)[i],List.getElem_mem i.isLt,?_⟩
  rw [hunder,← hr]
  exact isPart_group h i

/-- Every vertex of a well-formed query has its part. -/
theorem exists_isPart (h : q.WellFormed) (hv : v ∈ q.vertices .whole) :
    ∃ part ∈ q.components, q.IsPart v part := by
  obtain ⟨i,rfl⟩ := List.mem_iff_get.mp hv
  have hr : q.trees.root i ∈ q.rooted.map Prod.fst :=
    List.mem_map_of_mem (f:=Prod.fst) ((mem_rooted h).mpr .refl)
  have hg : (q.trees.root i,(q.rooted.filter fun e => e.1 = q.trees.root i).map Prod.snd) ∈
      groups q.rooted := mem_groups.mpr ⟨hr,rfl⟩
  rw [components_eq]
  exact ⟨_,List.mem_map_of_mem hg,isPart_group h i⟩

/-! ## The order of the parts -/

/-- The first vertex of a part is listed before all vertices of another one. -/
def FirstBefore (q : Query) (part part' : List ItemId) : Prop :=
  ∃ v ∈ part, ∀ u ∈ part', (q.vertices .whole).idxOf v < (q.vertices .whole).idxOf u

instance (q : Query) : Std.Irrefl q.FirstBefore where
  irrefl _ := fun ⟨v,hv,hbefore⟩ => Nat.lt_irrefl _ (hbefore v hv)

instance (q : Query) : Std.Antisymm q.FirstBefore where
  antisymm _ _ := fun ⟨v,hv,hbefore⟩ ⟨u,hu,hafter⟩ =>
    absurd (hbefore u hu) (Nat.lt_asymm (hafter v hv))

/-- The parts of a well-formed query stand in the order of their first vertices. -/
theorem pairwise_components (h : q.WellFormed) : q.components.Pairwise q.FirstBefore := by
  have hlisted : (q.rooted.map Prod.snd).Pairwise fun v u =>
      (q.vertices .whole).idxOf v < (q.vertices .whole).idxOf u := by
    rw [map_snd_rooted]
    refine List.pairwise_iff_getElem.mpr fun i k hi hk hik => ?_
    rwa [h.nodup_vertices.idxOf_getElem,h.nodup_vertices.idxOf_getElem]
  rw [components_eq]
  refine List.pairwise_map.mpr ((pairwise_groups hlisted).imp ?_)
  rintro g g' ⟨v,hv,hafter⟩
  exact ⟨v,mem_orderedSet.mpr hv,fun u hu => hafter u (mem_orderedSet.mp hu)⟩

/-- A single part is left exactly if there is a vertex and chains of edges join all vertices. -/
theorem length_components (h : q.WellFormed) : q.components.length = 1 ↔
    q.vertices .whole ≠ [] ∧ ∀ v ∈ q.vertices .whole, ∀ u ∈ q.vertices .whole, q.Chained v u := by
  constructor
  · intro hone
    obtain ⟨part,hpart⟩ := List.length_eq_one_iff.mp hone
    have honly : ∀ {v}, v ∈ q.vertices .whole → q.IsPart v part := fun {v} hv => by
      obtain ⟨part',hp,hv⟩ := exists_isPart h hv
      rw [hpart] at hp
      exact List.mem_singleton.mp hp ▸ hv
    have hp : part ∈ q.components := by
      rw [hpart]
      exact List.mem_singleton_self part
    obtain ⟨v,hv,-⟩ := exists_isPart_of_mem h hp
    exact ⟨List.ne_nil_of_mem hv,fun v hv u hu => ((honly hv).mem_iff u).mp (honly hu).mem⟩
  · rintro ⟨hne,hall⟩
    obtain ⟨v,hv⟩ := List.exists_mem_of_ne_nil _ hne
    obtain ⟨part,hp,hpart⟩ := exists_isPart h hv
    have hnodup := (pairwise_components h).nodup
    -- Every part is the one of the vertex.
    have hsame : ∀ p ∈ q.components, p = part := fun p hp => by
      obtain ⟨u,hu,hpu⟩ := exists_isPart_of_mem h hp
      exact hpu.eq (hpart.of_mem ((hpart.mem_iff u).mpr (hall v hv u hu)))
    have hle : q.components.length ≤ 1 := (List.nodup_replicate (a:=part)).mp (by
      rwa [← List.eq_replicate_of_mem hsame])
    exact Nat.le_antisymm hle (List.length_pos_of_mem hp)

/-! ## The parts are the classes of joined vertices -/

/-- The lists of vertices are the connected parts of a query. -/
structure Parted (q : Query) (parts : List (List ItemId)) : Prop where
  /-- The vertices in the parts are those of the query, whichever containers own them. -/
  covered : ∀ v, (∃ part ∈ parts, v ∈ part) ↔ v ∈ q.vertices .whole
  /-- No part is empty. -/
  inhabited : ∀ part ∈ parts, part ≠ []
  /-- Different parts share no vertex. -/
  apart : parts.Pairwise List.Disjoint
  /-- Two vertices are in one part exactly if a chain of edges joins them. -/
  together : ∀ v ∈ q.vertices .whole, ∀ u ∈ q.vertices .whole,
    (∃ part ∈ parts, v ∈ part ∧ u ∈ part) ↔ q.Chained v u
  /-- The parts stand in the order of their first vertices. -/
  ordered : parts.Pairwise q.FirstBefore
  /-- Each part has its vertices in increasing order, each once. -/
  ascending : ∀ part ∈ parts, part.Pairwise (· < ·)

/-- A list among the connected parts is the part of each of its vertices. -/
theorem Parted.isPart (hp : q.Parted parts) (h : q.WellFormed) (hpart : part ∈ parts)
    (hv : v ∈ part) : q.IsPart v part where
  ascending := hp.ascending part hpart
  mem_iff u := by
    have hvertex := (hp.covered v).mp ⟨part,hpart,hv⟩
    constructor
    · intro hu
      exact (hp.together v hvertex u ((hp.covered u).mp ⟨part,hpart,hu⟩)).mp ⟨part,hpart,hv,hu⟩
    · intro hchain
      obtain ⟨part',hpart',hv',hu⟩ :=
        (hp.together v hvertex u (hchain.mem_vertices h hvertex)).mpr hchain
      -- Two vertices are together in some part, and the first one is in no other than its own.
      have : Std.Symm (List.Disjoint (α:=ItemId)) := ⟨fun _ _ hd _ hv hw => hd hw hv⟩
      by_contra hnot
      exact hp.apart.forall hpart hpart' (fun he => hnot (he ▸ hu)) hv hv'

/-- The parts of a well-formed query are its connected parts. -/
theorem parted_components (h : q.WellFormed) : q.Parted q.components where
  covered v := by
    constructor
    · rintro ⟨part,hp,hv⟩
      obtain ⟨w,hw,hpart⟩ := exists_isPart_of_mem h hp
      exact ((hpart.mem_iff v).mp hv).mem_vertices h hw
    · intro hv
      obtain ⟨part,hp,hpart⟩ := exists_isPart h hv
      exact ⟨part,hp,hpart.mem⟩
  inhabited part hp := by
    obtain ⟨w,-,hpart⟩ := exists_isPart_of_mem h hp
    exact List.ne_nil_of_mem hpart.mem
  apart := by
    refine (pairwise_components h).imp_of_mem fun {p p'} hp hp' hbefore w hw hw' => ?_
    obtain ⟨v,-,hv⟩ := exists_isPart_of_mem h hp
    obtain ⟨u,-,hu⟩ := exists_isPart_of_mem h hp'
    exact irrefl_of q.FirstBefore p ((hv.of_mem hw).eq (hu.of_mem hw') ▸ hbefore)
  together v hv u _ := by
    constructor
    · rintro ⟨part,hp,hvp,hup⟩
      obtain ⟨w,-,hpart⟩ := exists_isPart_of_mem h hp
      exact ((hpart.of_mem hvp).mem_iff u).mp hup
    · intro hchain
      obtain ⟨part,hp,hpart⟩ := exists_isPart h hv
      exact ⟨part,hp,hpart.mem,(hpart.mem_iff u).mpr hchain⟩
  ordered := pairwise_components h
  ascending part hp := by
    obtain ⟨w,-,hpart⟩ := exists_isPart_of_mem h hp
    exact hpart.ascending

/-- The connected parts of a well-formed query are determined. -/
theorem Parted.eq_components (hp : q.Parted parts) (h : q.WellFormed) : parts = q.components := by
  refine hp.ordered.eq_of_mem_iff (pairwise_components h) fun part => ⟨fun hpart => ?_,
    fun hpart => ?_⟩
  · obtain ⟨v,hv⟩ := List.exists_mem_of_ne_nil _ (hp.inhabited part hpart)
    obtain ⟨part',hpart',hv'⟩ := exists_isPart h ((hp.covered v).mp ⟨part,hpart,hv⟩)
    exact (hp.isPart h hpart hv).eq hv' ▸ hpart'
  · obtain ⟨v,hv,hvp⟩ := exists_isPart_of_mem h hpart
    obtain ⟨part',hpart',hv'⟩ := (hp.covered v).mpr hv
    exact hvp.eq (hp.isPart h hpart' hv') ▸ hpart'

/-- The parts of a well-formed query cover its vertices and share none, two vertices are in one part
exactly if a chain of edges joins them, and the parts stand in the order of their first vertices. No
other lists are like that. -/
theorem eq_components_iff (h : q.WellFormed) : parts = q.components ↔ q.Parted parts :=
  ⟨fun he => he ▸ parted_components h,fun hp => hp.eq_components h⟩

/-- Two vertices in the root and three in subqueries, with a loop, edges that lie where none of
their ends does, and an edge with an unknown end. -/
def scattered : Query := (bare "q" "").edited
  [.addSubquery .root none,
    .addVertex ⟨1⟩ ⟨.bare ["M"] (.vertex false []),@Item.Made.vertex "M" _ rfl⟩,
    .addVertex .root ⟨.bare ["K"] (.vertex false []),@Item.Made.vertex "K" _ rfl⟩,
    .addSubquery ⟨1⟩ none,
    .addVertex ⟨2⟩ ⟨.bare ["N"] (.vertex false []),@Item.Made.vertex "N" _ rfl⟩,
    .addVertex .root ⟨.bare ["O"] (.vertex false []),@Item.Made.vertex "O" _ rfl⟩,
    .addVertex ⟨1⟩ ⟨.bare ["L"] (.vertex false []),@Item.Made.vertex "L" _ rfl⟩,
    .addEdge .root ⟨.bare ["x"] (.edge ⟨none,none,"N","M",true⟩),
      @Item.Made.edge "x" "N" "M" true _ rfl⟩,
    .addEdge ⟨2⟩ ⟨.bare ["y"] (.edge ⟨none,none,"L","N",false⟩),
      @Item.Made.edge "y" "L" "N" false _ rfl⟩,
    .addEdge ⟨1⟩ ⟨.bare ["loop"] (.edge ⟨none,none,"M","M",true⟩),
      @Item.Made.edge "loop" "M" "M" true _ rfl⟩,
    .addEdge ⟨2⟩ ⟨.bare ["z"] (.edge ⟨none,none,"K","O",true⟩),
      @Item.Made.edge "z" "K" "O" true _ rfl⟩,
    .addEdge .root ⟨.bare ["half"] (.edge ⟨none,none,"K","P",true⟩),
      @Item.Made.edge "half" "K" "P" true _ rfl⟩]

/-- The vertices of the root come first, although a vertex of the other part has a smaller number. -/
theorem eq_components_iff_scattered : scattered.WellFormed ∧
    scattered.components = [[⟨1⟩,⟨3⟩],[⟨0⟩,⟨2⟩,⟨4⟩]] ∧
    scattered.Parted [[⟨1⟩,⟨3⟩],[⟨0⟩,⟨2⟩,⟨4⟩]] ∧ ¬scattered.Parted [[⟨0⟩,⟨2⟩,⟨4⟩],[⟨1⟩,⟨3⟩]] := by
  have h : scattered.WellFormed := ((wellFormed_bare "q" "").edited _).1
  have hparts : scattered.components = [[⟨1⟩,⟨3⟩],[⟨0⟩,⟨2⟩,⟨4⟩]] := by decide +kernel
  refine ⟨h,hparts,(eq_components_iff h).mp hparts.symm,fun hp => ?_⟩
  rw [← eq_components_iff h,hparts] at hp
  revert hp
  decide

end GraphPattern.Query
