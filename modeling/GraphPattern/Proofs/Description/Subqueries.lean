import GraphPattern.Proofs.Description.Passes

/-!
# The tree of subqueries

The nesting of subqueries becomes a tree of containers with numbers of their own. Adding the
subqueries of a container leaves every container that was there as it was, but for the list of the one
around them, so a tree that has been added stays while others follow.
-/

namespace GraphPattern

open Step

/-! ## What a query keeps of a description -/

/-- The members as a query keeps them. Cached items stand in the order of their names. -/
def Members.settled (m : Members) : Members :=
  { m with
    constraints := m.constraints.map ConstraintEntry.settled
    cached := sortBy (fun a b => a.item < b.item) m.cached }

mutual

/-- A subquery as a query keeps it. -/
def SubqueryEntry.settled : SubqueryEntry → SubqueryEntry
  | .mk bounds members nested => .mk bounds members.settled (SubqueryEntry.settledAll nested)

/-- The subqueries as a query keeps them. -/
def SubqueryEntry.settledAll : List SubqueryEntry → List SubqueryEntry
  | [] => []
  | entry :: entries => entry.settled :: SubqueryEntry.settledAll entries

end

namespace Description

/-- The description as a query keeps it. -/
def settled (d : Description) : Description :=
  { d with members := d.members.settled, subqueries := SubqueryEntry.settledAll d.subqueries }

open Query

variable {q q' : Query} {ids : List ContainerId} {entries : List SubqueryEntry}
variable {added : List (ContainerId × Members)}

/-! ## The tree of subqueries -/

/-- Some numbers belong to the subqueries of some entries, with what lies inside them nested as it is
described. All containers are listed with the members of their entries, each before those inside. -/
inductive Laid (q : Query) :
    List ContainerId → List SubqueryEntry → List (ContainerId × Members) → Prop
  /-- No subqueries. -/
  | nil : Laid q [] [] []
  /-- A subquery and those after it. -/
  | cons {c : ContainerId} {ids children : List ContainerId} {bounds : Option Annotation}
      {members : Members} {nested entries : List SubqueryEntry}
      {inner others : List (ContainerId × Members)} :
    q.frame? c = some (bounds,children) → Laid q children nested inner → Laid q ids entries others →
      Laid q (c :: ids) (.mk bounds members nested :: entries) ((c,members) :: inner ++ others)

/-- A tree stays as long as the containers in it stay where they are. -/
theorem Laid.congr (h : Laid q ids entries added)
    (hf : ∀ e ∈ added, q'.frame? e.1 = q.frame? e.1) : Laid q' ids entries added := by
  induction h with
  | nil => exact .nil
  | cons hc _ _ ihn ihe =>
    exact .cons ((hf _ List.mem_cons_self).trans hc) (ihn fun e he => hf e (by simp [he]))
      (ihe fun e he => hf e (by simp [he]))

/-- The containers of a tree are live. -/
theorem Laid.live (h : Laid q ids entries added) {e : ContainerId × Members} (he : e ∈ added) :
    q.frame? e.1 ≠ none := by
  induction h with
  | nil => cases he
  | cons hc _ _ ihn ihe =>
    simp only [List.cons_append,List.mem_cons,List.mem_append] at he
    rcases he with rfl|he|he
    · rw [hc]
      exact Option.some_ne_none _
    · exact ihn he
    · exact ihe he

/-- The members in a tree are those of the entries. -/
theorem Laid.map_snd (h : Laid q ids entries added) :
    added.map Prod.snd = SubqueryEntry.allMembers entries := by
  induction h with
  | nil =>
    rw [SubqueryEntry.allMembers]
    rfl
  | cons _ _ _ ihn ihe =>
    rw [SubqueryEntry.allMembers,List.cons_append,List.map_cons,List.map_append,ihn,ihe,
      List.cons_append]

/-- A depth that is enough for a container and all greater numbers is enough inside, with one level
less. -/
theorem depth_inside {c : ContainerId} {bounds : Option Annotation} {children : List ContainerId}
    (hq : q.Nested) (hc : q.frame? c = some (bounds,children)) {depth : Nat}
    (hd : q.containers.next ≤ c.index+depth) :
    ∃ n, depth = n+1 ∧ ∀ e ∈ children, q.containers.next ≤ e.index+n := by
  obtain ⟨C,hC,hframe⟩ := Option.map_eq_some_iff.mp hc
  obtain ⟨-,rfl⟩ := Prod.mk.inj hframe
  have hlt := index_lt_of_container? hC
  refine ⟨depth-1,by omega,fun e he => ?_⟩
  have hbelow := hq.below hC he
  omega

/-- With depth enough for all greater numbers, the containers below the first ones are those of the
tree. -/
theorem Laid.containersBelow (h : Laid q ids entries added) (hq : q.Nested) {depth : Nat}
    (hd : ∀ c ∈ ids, q.containers.next ≤ c.index+depth) :
    ids.flatMap (q.containersBelow depth) = added.map Prod.fst := by
  induction h generalizing depth with
  | nil => rfl
  | cons hc _ _ ihn ihe =>
    obtain ⟨n,rfl,hinner⟩ := depth_inside hq hc (hd _ List.mem_cons_self)
    obtain ⟨C,hC,hframe⟩ := Option.map_eq_some_iff.mp hc
    obtain ⟨-,rfl⟩ := Prod.mk.inj hframe
    rw [List.flatMap_cons,ihe fun e he => hd e (List.mem_cons_of_mem _ he),Query.containersBelow]
    simp only [hC]
    rw [ihn hinner,List.map_append,List.map_cons]

/-- If the containers of a tree show their members, the tree reads back. -/
theorem Laid.reads (h : Laid q ids entries added) (hq : q.Nested)
    (hm : ∀ e ∈ added, q.members? e.1 = some e.2.settled) {depth : Nat}
    (hd : ∀ c ∈ ids, q.containers.next ≤ c.index+depth) :
    ids.mapM (q.describeSubquery? depth) = some (SubqueryEntry.settledAll entries) := by
  induction h generalizing depth with
  | nil =>
    rw [SubqueryEntry.settledAll]
    rfl
  | @cons c ids children bounds members nested entries inner others hc _ _ ihn ihe =>
    obtain ⟨n,rfl,hinner⟩ := depth_inside hq hc (hd _ List.mem_cons_self)
    have hown : q.members? c = some members.settled := hm (c,members) List.mem_cons_self
    have hnested := ihn (fun e he => hm e (by simp [he])) hinner
    have hrest := ihe (fun e he => hm e (by simp [he])) fun e he => hd e (List.mem_cons_of_mem _ he)
    have hfirst : q.describeSubquery? (n+1) c =
        some (.mk bounds members.settled (SubqueryEntry.settledAll nested)) := by
      rw [describeSubquery?,hc,hown]
      simp only [Option.bind_eq_bind,Option.bind_some,hnested,Option.pure_def]
    rw [List.mapM_cons,hfirst,hrest,SubqueryEntry.settledAll,SubqueryEntry.settled]
    rfl

/-! ## Adding subqueries -/

/-- The members of an entry of which the vertices alone have been added. -/
def onlyVertices (members : Members) : Members := ⟨members.vertices,[],[],[],[]⟩

/-- Subqueries have come below a container, and nothing else is new. -/
structure Grows (parent : ContainerId) (entries : List SubqueryEntry)
    (added : List (ContainerId × Members)) (q q' : Query) : Prop where
  /-- The name is the same. -/
  name : q'.name = q.name
  /-- The description is the same. -/
  description : q'.description = q.description
  /-- The tree of the entries stands at the end of the subqueries of the container. -/
  tree : ∃ ids, q'.frame? parent = (q.frame? parent).map (fun f => (f.1,f.2 ++ ids)) ∧
    Laid q' ids entries added
  /-- Other containers lie as they lay. -/
  frame : ∀ d, d ≠ parent → q.frame? d ≠ none → q'.frame? d = q.frame? d
  /-- All containers that were there show the same entries. -/
  old : ∀ d, q.frame? d ≠ none → q'.members? d = q.members? d
  /-- The containers of the tree were not there. -/
  fresh : ∀ e ∈ added, q.frame? e.1 = none
  /-- The containers of the tree show their vertices. -/
  new : ∀ e ∈ added, q'.members? e.1 = some (onlyVertices e.2)
  /-- No container occurs twice in the tree. -/
  nodup : (added.map Prod.fst).Nodup

/-- Live containers stay live. -/
theorem Grows.live {parent : ContainerId} (h : Grows parent entries added q q') {d : ContainerId}
    (hd : q.frame? d ≠ none) : q'.frame? d ≠ none := by
  by_cases hp : d = parent
  · obtain ⟨ids,hids,-⟩ := h.tree
    rw [hp,hids,ne_eq,Option.map_eq_none_iff,← hp]
    exact hd
  · rwa [h.frame d hp hd]

theorem container?_withSubquery {parent : ContainerId} (hp : q.frame? parent ≠ none)
    (bounds : Option Annotation) (d : ContainerId) : (q.withSubquery parent bounds).container? d =
      if d = q.nextContainer then some (Container.bare (.subquery parent bounds))
      else (q.container? d).map fun C =>
        if d = parent then { C with subqueries := C.subqueries ++ [q.nextContainer] } else C := by
  have hne : parent ≠ q.nextContainer := fun he => by
    rw [he,ne_eq,frame?_eq_none] at hp
    exact hp q.container?_nextContainer
  rw [Query.withSubquery,container?_mapContainer,container?_pushContainer]
  by_cases hd : d = parent
  · rw [if_pos hd,if_neg (hd ▸ hne),if_neg (hd ▸ hne)]
    simp only [if_pos hd]
  · simp only [if_neg hd,Option.map_id']

theorem frame?_withSubquery {parent : ContainerId} (hp : q.frame? parent ≠ none)
    (bounds : Option Annotation) (d : ContainerId) : (q.withSubquery parent bounds).frame? d =
      if d = q.nextContainer then some (bounds,[])
      else (q.frame? d).map fun f =>
        (f.1,if d = parent then f.2 ++ [q.nextContainer] else f.2) := by
  rw [frame?,frame?,container?_withSubquery hp]
  split
  · rfl
  · cases q.container? d with
    | none => rfl
    | some C =>
      simp only [Option.map_some]
      split <;> rfl

theorem members?_withSubquery {parent : ContainerId} (hp : q.frame? parent ≠ none)
    (bounds : Option Annotation) (d : ContainerId) : (q.withSubquery parent bounds).members? d =
      if d = q.nextContainer then some ⟨[],[],[],[],[]⟩ else q.members? d := by
  rw [members?,members?,container?_withSubquery hp]
  split
  · rfl
  · cases q.container? d with
    | none => rfl
    | some C =>
      simp only [Option.map_some,Option.bind_some]
      split <;> rfl

/-- A subquery comes with its vertices. -/
theorem grows_single {parent : ContainerId} {bounds : Option Annotation} {members : Members}
    (hp : q.frame? parent ≠ none)
    (ha : Amends q.nextContainer (fun m m' => m' = { m with vertices := m.vertices ++ members.vertices })
      (q.withSubquery parent bounds) q') :
    Grows parent [.mk bounds members []] [(q.nextContainer,members)] q q' := by
  have hnew : q.frame? q.nextContainer = none := frame?_eq_none.mpr q.container?_nextContainer
  have hne : ∀ {d}, q.frame? d ≠ none → d ≠ q.nextContainer := fun hd he => hd (he ▸ hnew)
  have hframe := fun d => (ha.frame d).trans (frame?_withSubquery hp bounds d)
  constructor
  · exact ha.name
  · exact ha.description
  · refine ⟨[q.nextContainer],?_,.cons (by rw [hframe,if_pos rfl]) .nil .nil⟩
    rw [hframe,if_neg (hne hp)]
    simp only [if_true]
  · intro d hdp hd
    rw [hframe,if_neg (hne hd)]
    simp only [if_neg hdp,Option.map_id']
  · intro d hd
    rw [ha.other d (hne hd),members?_withSubquery hp,if_neg (hne hd)]
  · intro e he
    rw [List.mem_singleton.mp he]
    exact hnew
  · intro e he
    obtain ⟨m,hm,rfl⟩ := ha.own ⟨[],[],[],[],[]⟩ (by rw [members?_withSubquery hp,if_pos rfl])
    rw [List.mem_singleton.mp he]
    exact hm
  · exact List.nodup_singleton _

/-- The tree of a subquery without others inside is its container. -/
theorem Laid.single {c : ContainerId} {bounds : Option Annotation} {members : Members}
    (h : Laid q ids [.mk bounds members []] [(c,members)]) :
    ids = [c] ∧ q.frame? c = some (bounds,[]) := by
  generalize hadded : [(c,members)] = added at h
  cases h with
  | cons hc hn ho =>
    cases hn
    cases ho
    cases hadded
    exact ⟨rfl,hc⟩

/-- After a subquery come those inside it, and then those after it. -/
theorem Grows.cons {parent c : ContainerId} {bounds : Option Annotation} {members : Members}
    {nested : List SubqueryEntry} {inner others : List (ContainerId × Members)} {q₂ q₃ : Query}
    (hp : q.frame? parent ≠ none) (h : Grows parent [.mk bounds members []] [(c,members)] q q₂)
    (hn : Grows c nested inner q₂ q₃) (ho : Grows parent entries others q₃ q') :
    Grows parent (.mk bounds members nested :: entries) ((c,members) :: inner ++ others) q q' := by
  have hne : ∀ {d}, q.frame? d ≠ none → d ≠ c := fun hd he =>
    hd (he ▸ h.fresh _ List.mem_cons_self)
  obtain ⟨_,hparent,hlaid⟩ := h.tree
  obtain ⟨rfl,hc⟩ := hlaid.single
  have hc₂ : q₂.frame? c ≠ none := hlaid.live List.mem_cons_self
  have hc₃ : q₃.frame? c ≠ none := hn.live hc₂
  obtain ⟨children,hchildren,hinner⟩ := hn.tree
  obtain ⟨ids,hids,hothers⟩ := ho.tree
  have hapart : ∀ e ∈ inner, e.1 ≠ parent := fun e he hep =>
    h.live hp (hep ▸ hn.fresh e he)
  constructor
  · exact (ho.name.trans hn.name).trans h.name
  · exact (ho.description.trans hn.description).trans h.description
  · have hown : q'.frame? c = some (bounds,children) := by
      rw [ho.frame c (hne hp).symm hc₃,hchildren,hc]
      rfl
    have hkept := hinner.congr fun e he => ho.frame _ (hapart e he) (hinner.live he)
    refine ⟨c :: ids,?_,.cons hown hkept hothers⟩
    rw [hids,hn.frame parent (hne hp) (h.live hp),hparent,Option.map_map]
    simp [Function.comp_def]
  · intro d hdp hd
    have hd₂ := h.live hd
    rw [ho.frame d hdp (hn.live hd₂),hn.frame d (hne hd) hd₂,h.frame d hdp hd]
  · intro d hd
    have hd₂ := h.live hd
    rw [ho.old d (hn.live hd₂),hn.old d hd₂,h.old d hd]
  · intro e he
    simp only [List.cons_append,List.mem_cons,List.mem_append] at he
    rcases he with rfl|he|he
    · exact h.fresh _ List.mem_cons_self
    · by_contra hd
      exact h.live hd (hn.fresh e he)
    · by_contra hd
      exact hn.live (h.live hd) (ho.fresh e he)
  · intro e he
    simp only [List.cons_append,List.mem_cons,List.mem_append] at he
    rcases he with rfl|he|he
    · rw [ho.old c hc₃,hn.old c hc₂,h.new _ List.mem_cons_self]
    · rw [ho.old _ (hinner.live he),hn.new e he]
    · exact ho.new e he
  · rw [List.cons_append,List.map_cons,List.map_append]
    refine List.nodup_cons.mpr ⟨fun hm => ?_,List.nodup_append.mpr ⟨hn.nodup,ho.nodup,?_⟩⟩
    · rcases List.mem_append.mp hm with hm|hm
      · obtain ⟨e,he,rfl⟩ := List.mem_map.mp hm
        exact hc₂ (hn.fresh e he)
      · obtain ⟨e,he,rfl⟩ := List.mem_map.mp hm
        exact hc₃ (ho.fresh e he)
    · rintro a ha b hb rfl
      obtain ⟨e,he,rfl⟩ := List.mem_map.mp ha
      obtain ⟨f,hf,hfe⟩ := List.mem_map.mp hb
      exact hinner.live he (hfe ▸ ho.fresh f hf)

/-- Adding subqueries adds the tree that is described. -/
theorem grows_addSubqueries (parent : ContainerId) (entries : List SubqueryEntry) {q q' : Query}
    {added : List (ContainerId × Members)} (hq : q.Written) (hp : q.frame? parent ≠ none)
    (h : addSubqueries parent entries q = .ok added q') :
    Grows parent entries added q q' ∧ q'.Written := by
  induction parent, entries using addSubqueries.induct generalizing q q' added with
  | case1 parent =>
    rw [addSubqueries] at h
    cases h
    refine ⟨⟨rfl,rfl,⟨[],?_,.nil⟩,fun _ _ _ => rfl,fun _ _ => rfl,fun _ he => ?_,fun _ he => ?_,
      List.nodup_nil⟩,hq⟩
    · simp only [List.append_nil,Prod.mk.eta,Option.map_id']
    · cases he
    · cases he
  | case2 parent bounds members nested entries ihn ihe =>
    rw [addSubqueries] at h
    obtain ⟨checked,q₀,hcheck,h⟩ := bind_eq_ok.mp h
    obtain ⟨hchecked,rfl⟩ := lift_eq_ok.mp hcheck
    cases eq_of_mapM_checked (fun _ _ => Annotation.checked_ok) hchecked
    obtain ⟨subquery,q₁,hsub,h⟩ := bind_eq_ok.mp h
    obtain ⟨_,q₂,hvertices,h⟩ := bind_eq_ok.mp h
    obtain ⟨inner,q₃,hinner,h⟩ := bind_eq_ok.mp h
    obtain ⟨others,q₄,hothers,h⟩ := bind_eq_ok.mp h
    cases h
    obtain ⟨P,hP⟩ := not_refused (addSubquery_cases q parent bounds) hsub
    rw [addSubquery_ok hP] at hsub
    cases hsub
    have hq₁ : (q.withSubquery parent bounds).Written :=
      hq.of_same (hq.wellFormed.withSubquery hP bounds) fun _ => rfl
    obtain ⟨ha,hq₂⟩ := amends_addVertices hq₁ hvertices
    have hsingle := grows_single hp ha
    obtain ⟨_,-,hlaid⟩ := hsingle.tree
    obtain ⟨hn,hq₃⟩ := ihn _ hq₂ (hlaid.live List.mem_cons_self) hinner
    obtain ⟨ho,hq'⟩ := ihe hq₃ (hn.live (hsingle.live hp)) hothers
    exact ⟨.cons hp hsingle hn ho,hq'⟩

end Description

end GraphPattern
