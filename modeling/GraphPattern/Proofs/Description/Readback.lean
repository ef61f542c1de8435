import GraphPattern.Proofs.Description.Subqueries

/-!
# What is built reads back

A query that is built shows the description that it was built from: the members of every container in
their order, the subqueries as they are nested, the ends of edges at the vertices that are named. Of
a constraint that is annotated by halves, with an item and no bounds or the other way round, only the
relation is kept.
-/

namespace GraphPattern

open Step

namespace Description

open Query

variable {q : Query} {ids : List ContainerId} {entries : List SubqueryEntry}
variable {added : List (ContainerId × Members)}

/-! ## What is built -/

/-- The names of all vertices. -/
def vertexNames (d : Description) : List String :=
  d.allMembers.flatMap fun m => m.vertices.map VertexEntry.name

/-- The names of all edges. -/
def edgeNames (d : Description) : List String :=
  d.allMembers.flatMap fun m => m.edges.map EdgeEntry.name

/-- The root and the containers of a tree are all there are. -/
theorem Laid.containerIds (h : Laid q ids entries added) (hq : q.Nested)
    {bounds : Option Annotation} (hroot : q.frame? .root = some (bounds,ids)) :
    q.containerIds = .root :: added.map Prod.fst := by
  obtain ⟨n,hn,hinner⟩ := depth_inside hq hroot (Nat.le_add_left q.containers.next _)
  obtain ⟨C,hC,hframe⟩ := Option.map_eq_some_iff.mp hroot
  obtain ⟨-,rfl⟩ := Prod.mk.inj hframe
  rw [Query.containerIds,hn,Query.containersBelow]
  simp only [hC]
  rw [h.containersBelow hq hinner]

/-- Without edges there are no ends to resolve. -/
theorem resolved_of_noEdges (hq : q.WellFormed)
    (h : ∀ c C, q.container? c = some C → C.edges = []) : q.Resolved := by
  have hnone : ∀ {i x ends}, q.item? i = some x → x.ends? ≠ some ends := by
    intro i x ends hx he
    obtain ⟨c,C,-,hC,hm⟩ := hq.owned.owner hx
    rw [Item.not_isVertex_iff.mpr ⟨ends,he⟩] at hm
    change i ∈ C.edges at hm
    rw [h c C hC] at hm
    cases hm
  exact ⟨fun hx he => absurd he (hnone hx),fun hx he => absurd he (hnone hx)⟩

/-- The containers of a query are those of a description, nested alike, and show their members. -/
structure Shown (d : Description) (ids : List ContainerId) (added : List (ContainerId × Members))
    (q : Query) : Prop where
  /-- The name is the same. -/
  name : q.name = d.name
  /-- The description is the same. -/
  description : q.description = d.description
  /-- The root has no annotation and lies around the outermost subqueries. -/
  root : q.frame? .root = some (none,ids)
  /-- The subqueries lie as they are described. -/
  tree : Laid q ids d.subqueries added
  /-- Every container shows the members that are described. -/
  members : ∀ e ∈ (.root,d.members) :: added, q.members? e.1 = some e.2.settled

/-- After the first pass every container shows its vertices and no edges. -/
theorem built_of_grows {d : Description} (hq : q.Written)
    (hroot : q.frame? .root = some (none,ids)) (h : Laid q ids d.subqueries added)
    (hm : ∀ e ∈ (ContainerId.root,d.members) :: added, q.members? e.1 = some (onlyVertices e.2)) :
    q.Built := by
  refine ⟨hq,resolved_of_noEdges hq.wellFormed fun c C hC => ?_⟩
  have hc : c ∈ q.containerIds :=
    hq.wellFormed.nested.mem_containerIds.mpr (Option.isSome_iff_exists.mpr ⟨C,hC⟩)
  rw [h.containerIds hq.wellFormed.nested hroot] at hc
  change c ∈ ((ContainerId.root,d.members) :: added).map Prod.fst at hc
  obtain ⟨e,he,rfl⟩ := List.mem_map.mp hc
  obtain ⟨D,hD,hshown⟩ := members?_eq_some.mp (hm e he)
  cases hC.symm.trans hD
  exact List.forall₂_nil_right_iff.mp (membersOf?_eq_some.mp hshown).2.1

/-- Building leads to a query that shows what is described. -/
theorem shown_build {d : Description} (h : d.build = .ok q) :
    ∃ ids added, Shown d ids added q ∧ q.Built := by
  rw [build] at h
  split at h
  · rename_i u q' hrun
    cases h
    obtain ⟨_,q₁,h₁,hrun⟩ := bind_eq_ok.mp hrun
    obtain ⟨added,q₂,h₂,hrun⟩ := bind_eq_ok.mp hrun
    obtain ⟨_,q₃,h₃,h₄⟩ := bind_eq_ok.mp hrun
    -- The vertices of the root, then the subqueries with theirs.
    obtain ⟨ha,hq₁⟩ := amends_addVertices (Query.written_bare d.name d.description) h₁
    have hroot₁ : q₁.frame? .root = some (none,[]) := (ha.frame .root).trans rfl
    have hlive₁ : q₁.frame? .root ≠ none := by
      rw [hroot₁]
      exact Option.some_ne_none _
    obtain ⟨hg,hq₂⟩ := grows_addSubqueries .root d.subqueries hq₁ hlive₁ h₂
    obtain ⟨ids,hids,htree⟩ := hg.tree
    have hroot₂ : q₂.frame? .root = some (none,ids) := by
      rw [hids,hroot₁]
      rfl
    have hmembers₂ : ∀ e ∈ (ContainerId.root,d.members) :: added,
        q₂.members? e.1 = some (onlyVertices e.2) := by
      intro e he
      rcases List.mem_cons.mp he with rfl|he
      · obtain ⟨m,hm,rfl⟩ := ha.own ⟨[],[],[],[],[]⟩ rfl
        exact (hg.old .root hlive₁).trans hm
      · exact hg.new e he
    have hnodup : (((ContainerId.root,d.members) :: added).map Prod.fst).Nodup := by
      refine List.nodup_cons.mpr ⟨fun hm => ?_,hg.nodup⟩
      obtain ⟨e,he,hroot⟩ := List.mem_map.mp hm
      have hnone := hg.fresh e he
      rw [hroot] at hnone
      exact hlive₁ hnone
    -- The edges and the declarations of all containers.
    obtain ⟨hedges,hq₃⟩ := amendsAll_forM (x:=fun e => addEdges e.1 e.2)
      (R:=fun members m m' => m' = { m with edges := m.edges ++ members.edges })
      (fun _ _ _ _ => amends_addEdges) hnodup (built_of_grows hq₂ hroot₂ htree hmembers₂) h₃
    obtain ⟨hdeclared,hq'⟩ := amendsAll_forM (x:=fun e => addDeclarations e.1 e.2) (R:=Declares)
      (fun _ _ _ _ => amends_addDeclarations) hnodup hq₃ h₄
    have hframe : ∀ c, q.frame? c = q₂.frame? c := fun c =>
      (hdeclared.frame c).trans (hedges.frame c)
    refine ⟨ids,added,⟨?_,?_,(hframe _).trans hroot₂,htree.congr fun e _ => hframe e.1,
      fun e he => ?_⟩,hq'⟩
    · exact (((hdeclared.name.trans hedges.name).trans hg.name).trans ha.name)
    · exact (((hdeclared.description.trans hedges.description).trans hg.description).trans
        ha.description)
    · obtain ⟨m,hm,rfl⟩ := hedges.own e he _ (hmembers₂ e he)
      obtain ⟨m',hm',hdecl,hcached⟩ := hdeclared.own e he _ hm
      rw [hm',hdecl,hcached.settled]
      rfl
  · cases h

theorem allMembers_settledAll (entries : List SubqueryEntry) :
    SubqueryEntry.allMembers (SubqueryEntry.settledAll entries) =
      (SubqueryEntry.allMembers entries).map Members.settled := by
  induction entries using SubqueryEntry.allMembers.induct with
  | case1 => rw [SubqueryEntry.settledAll,SubqueryEntry.allMembers,List.map_nil]
  | case2 bounds members nested entries ihn ihe =>
    rw [SubqueryEntry.settledAll,SubqueryEntry.settled,SubqueryEntry.allMembers,
      SubqueryEntry.allMembers,ihn,ihe,List.map_append,List.map_cons]

namespace Shown

variable {d : Description}

theorem map_snd (h : Shown d ids added q) :
    ((ContainerId.root,d.members) :: added).map Prod.snd = d.allMembers := by
  rw [List.map_cons,h.tree.map_snd,allMembers]

theorem map_fst (h : Shown d ids added q) (hq : q.Nested) :
    q.containerIds = ((ContainerId.root,d.members) :: added).map Prod.fst := by
  rw [h.tree.containerIds hq h.root,List.map_cons]

/-- The query shows the description that it keeps. -/
theorem describe (h : Shown d ids added q) (hq : q.Nested) : q.describe? = some d.settled := by
  have hmembers : q.members? .root = some d.members.settled :=
    h.members (.root,d.members) List.mem_cons_self
  have htree := h.tree.reads hq (fun e he => h.members e (List.mem_cons_of_mem _ he))
    fun c _ => Nat.le_add_left q.containers.next c.index
  rw [describe?,h.root,hmembers]
  simp only [Option.bind_eq_bind,Option.bind_some,htree,h.name,h.description]
  rfl

/-- The containers show their members one after another. -/
theorem listed (h : Shown d ids added q) (hq : q.Nested) :
    q.containerIds.mapM q.members? = some d.settled.allMembers := by
  have hall : d.settled.allMembers = d.allMembers.map Members.settled := by
    rw [allMembers,allMembers,List.map_cons]
    exact congrArg _ (allMembers_settledAll d.subqueries)
  rw [hall,h.map_fst hq,← h.map_snd,Query.mapM_eq_some_iff,List.forall₂_map_left_iff,List.map_map,
    List.forall₂_map_right_iff,List.forall₂_same]
  exact h.members

/-- What is described about items of a kind is shown by items, and nothing else is. -/
theorem exists_iff {α : Type} (listed : Members → List α) (items : Container → List ItemId)
    (shown : ItemId → Option α) (h : Shown d ids added q) (hq : q.Nested)
    (hset : ∀ m : Members, listed m.settled = listed m)
    (hshown : ∀ {C m}, q.membersOf? C = some m →
      List.Forall₂ (fun i a => shown i = some a) (items C) (listed m))
    (howner : ∀ {i a}, shown i = some a → ∃ c C, q.container? c = some C ∧ i ∈ items C)
    (P : α → Prop) :
    (∃ m ∈ d.allMembers, ∃ a ∈ listed m, P a) ↔ ∃ i a, shown i = some a ∧ P a := by
  constructor
  · rintro ⟨m,hm,a,ha,hP⟩
    rw [← h.map_snd] at hm
    obtain ⟨e,he,rfl⟩ := List.mem_map.mp hm
    obtain ⟨C,-,hC⟩ := members?_eq_some.mp (h.members e he)
    rw [← hset] at ha
    obtain ⟨i,-,hi⟩ := exists_left (hshown hC) ha
    exact ⟨i,a,hi,hP⟩
  · rintro ⟨i,a,hi,hP⟩
    obtain ⟨c,C,hC,hm⟩ := howner hi
    have hc : c ∈ q.containerIds := hq.mem_containerIds.mpr (Option.isSome_iff_exists.mpr ⟨C,hC⟩)
    rw [h.map_fst hq] at hc
    obtain ⟨e,he,rfl⟩ := List.mem_map.mp hc
    obtain ⟨D,hD,hshow⟩ := members?_eq_some.mp (h.members e he)
    cases hC.symm.trans hD
    obtain ⟨b,hb,hib⟩ := exists_right (hshown hshow) hm
    cases hi.symm.trans hib
    rw [hset] at hb
    exact ⟨e.2,h.map_snd ▸ List.mem_map_of_mem he,a,hb,hP⟩

/-- A vertex is described by a name exactly if a vertex shows it. -/
theorem mem_vertexNames (h : Shown d ids added q) (hq : q.Written) {n : String} :
    n ∈ d.vertexNames ↔ ∃ v, q.VertexNamed v n := by
  have hiff := exists_iff Members.vertices Container.vertices q.describeVertex? h
    hq.wellFormed.nested (fun _ => rfl)
    (fun hC => (membersOf?_eq_some.mp hC).1) (fun {i a} hi => by
      obtain ⟨x,hx,hv,-⟩ := hq.vertexNamed_iff.mp ⟨a,hi,rfl⟩
      obtain ⟨c,C,-,hC,hm⟩ := hq.wellFormed.owned.owner hx
      rw [hv] at hm
      exact ⟨c,C,hC,hm⟩) fun a => a.name = n
  simp only [vertexNames,List.mem_flatMap,List.mem_map]
  exact hiff

/-- An edge is described by a name exactly if an edge has it. -/
theorem mem_edgeNames (h : Shown d ids added q) (hq : q.Written) {n : String} :
    n ∈ d.edgeNames ↔ ∃ i, q.itemNames i = [n] ∧ q.IsEdge i := by
  have hiff := exists_iff Members.edges Container.edges q.describeEdge? h
    hq.wellFormed.nested (fun _ => rfl)
    (fun hC => (membersOf?_eq_some.mp hC).2.1) (fun {i a} hi => by
      obtain ⟨x,hx,he⟩ := Option.bind_eq_some_iff.mp hi
      obtain ⟨ends,hends,-⟩ := Option.bind_eq_some_iff.mp he
      obtain ⟨c,C,-,hC,hm⟩ := hq.wellFormed.owned.owner hx
      rw [Item.not_isVertex_iff.mpr ⟨ends,hends⟩] at hm
      exact ⟨c,C,hC,hm⟩) fun a => a.name = n
  have hnamed : ∀ i, (∃ a, q.describeEdge? i = some a ∧ a.name = n) ↔
      q.itemNames i = [n] ∧ q.IsEdge i := by
    intro i
    constructor
    · rintro ⟨a,ha,rfl⟩
      obtain ⟨x,hx,ha⟩ := Option.bind_eq_some_iff.mp ha
      obtain ⟨ends,hends,ha⟩ := Option.bind_eq_some_iff.mp ha
      obtain ⟨name,hname⟩ := (hq.item hx).single
      rw [Item.onlyName?,hname] at ha
      cases ha
      exact ⟨by rw [itemNames,hx]; exact hname,x,hx,Item.not_isVertex_iff.mpr ⟨ends,hends⟩⟩
    · rintro ⟨hn,x,hx,hv⟩
      obtain ⟨ends,hends⟩ := Item.not_isVertex_iff.mp hv
      rw [itemNames,hx] at hn
      change x.names = [n] at hn
      refine ⟨⟨n,ends.sourceName,ends.targetName,ends.directed,x.condition,x.bounds⟩,?_,rfl⟩
      rw [describeEdge?,hx,Option.bind_some,Item.describeEdge?,hends,Item.onlyName?,hn]
      rfl
  rw [← exists_congr hnamed,← hiff]
  simp only [edgeNames,List.mem_flatMap,List.mem_map]

end Shown

/-- The end of an edge is known exactly if a vertex is described by the name that is written for it,
and then it is that vertex. -/
def EndOf (d : Description) (q : Query) (vertex : Option ItemId) (name : String) : Prop :=
  (vertex.isSome = true ↔ name ∈ d.vertexNames) ∧ ∀ v, vertex = some v ↔ q.VertexNamed v name

/-- The query reads back as the description, with all that is described about items, subqueries and
declarations. -/
structure ReadsBack (d : Description) (q : Query) : Prop where
  /-- The query shows the description as it is kept, nested as it is written. -/
  describe : q.describe? = some d.settled
  /-- The containers, the root first and the subqueries depth first, show their members in order. -/
  members : q.containerIds.mapM q.members? = some d.settled.allMembers
  /-- First ends of edges are the vertices that are described. -/
  source : ∀ {i x ends}, q.item? i = some x → x.ends? = some ends →
    EndOf d q ends.source ends.sourceName
  /-- Second ends of edges are the vertices that are described. -/
  target : ∀ {i x ends}, q.item? i = some x → x.ends? = some ends →
    EndOf d q ends.target ends.targetName
  /-- A constraint is noted to be about edges exactly if its first item is described as an edge. -/
  onEdges : ∀ {c C k}, q.container? c = some C → k ∈ C.constraints →
    (k.onEdges = true ↔ ∃ n, k.itemNames.head? = some n ∧ n ∈ d.edgeNames)

/-- Building loses nothing but what is said of a constraint by halves: an annotated item without bounds
or bounds without an annotated item. -/
theorem readsBack_build {d : Description} {q : Query} (h : d.build = .ok q) : d.ReadsBack q := by
  obtain ⟨ids,added,hs,hq⟩ := shown_build h
  have hn := hq.written.wellFormed.nested
  have hend : ∀ {vertex : Option ItemId} {name : String},
      (∀ v, vertex = some v ↔ q.VertexNamed v name) → EndOf d q vertex name := by
    intro vertex name hv
    refine ⟨?_,hv⟩
    rw [hs.mem_vertexNames hq.written,Option.isSome_iff_exists]
    exact exists_congr hv
  refine ⟨hs.describe hn,hs.listed hn,fun hx he => hend (hq.resolved.source hx he),
    fun hx he => hend (hq.resolved.target hx he),fun {c C k} hC hk => ?_⟩
  refine (noted_build h c C k hC hk).trans (exists_congr fun n => ?_)
  rw [hs.mem_edgeNames hq.written,exists_and_left]

/-- Two vertices, one of them in a subquery, an edge between them, a constraint that annotates one of
them, and cached items out of order. -/
def crossing : Description where
  name := "q"
  description := ""
  members :=
    { vertices := [⟨"A",none,some ⟨some 1,none⟩⟩]
      edges := [⟨"e","A","B",true,none,none⟩]
      constraints := [⟨"ne",.item "A" none,.item "B" none,some "A",some ⟨some 1,none⟩⟩]
      links := [⟨"A","B","rel","cites"⟩]
      cached := [⟨"B","b"⟩,⟨"A","a"⟩] }
  subqueries := [.mk (some ⟨some 0,none⟩) ⟨[⟨"B",none,none⟩],[],[],[],[]⟩ []]

/-- The subquery, both ends of the edge and the constraint are as described, and the cached items are
in order. -/
theorem readsBack_build_crossing : ∃ q, crossing.build = .ok q ∧ crossing.ReadsBack q ∧
    crossing.settled.members.cached = [⟨"A","a"⟩,⟨"B","b"⟩] := by
  have hbuilds : crossing.build.toOption.isSome = true := by
    rw [build,addAll,crossing]
    simp only [addSubqueries]
    decide +kernel
  cases hq : crossing.build with
  | error e =>
    rw [hq] at hbuilds
    cases hbuilds
  | ok q => exact ⟨q,rfl,readsBack_build hq,by decide +kernel⟩

/-- A constraint without bounds, which may annotate an item all the same. -/
def halfAnnotated (item : Option String) : Description where
  name := "q"
  description := ""
  members :=
    { vertices := [⟨"A",none,none⟩]
      edges := []
      constraints := [⟨"eq",.item "A" (some "x"),.literal (.int 1),item,none⟩]
      links := []
      cached := [] }
  subqueries := []

/-- The annotated item is lost, although the description is accepted. -/
theorem annotatedItem_lost : ∃ q, (halfAnnotated (some "A")).build = .ok q ∧
    q.describe? = some (halfAnnotated none) ∧ q.describe? ≠ some (halfAnnotated (some "A")) := by
  have hshown : (halfAnnotated (some "A")).build.toOption.bind Query.describe? =
      some (halfAnnotated none) := by
    rw [build,addAll_flat rfl]
    decide +kernel
  cases hq : (halfAnnotated (some "A")).build with
  | error e =>
    rw [hq] at hshown
    cases hshown
  | ok q =>
    rw [hq] at hshown
    refine ⟨q,rfl,hshown,?_⟩
    change q.describe? = _ at hshown
    rw [hshown]
    decide +kernel

end Description

end GraphPattern
