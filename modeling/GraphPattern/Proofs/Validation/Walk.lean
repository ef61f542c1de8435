import GraphPattern.Proofs.Query.Gauge
import GraphPattern.Proofs.Rule.Ends
import GraphPattern.Proofs.Validation

/-!
# What may be absent

A walk visits a container with the containers around it on its stack, from the innermost to the
root. So what it finds may be absent is what is annotated so, or lies below a container that is,
and it finds each vertex once, and a subquery before those inside it.
-/

namespace GraphPattern.Query

open Relation

variable {q : Query} {a c d : ContainerId} {i v e : ItemId} {D : Container}

/-! ## The stack of a walk -/

/-- A visit of a walk that began at a container, inside others, shows something of a container below
it, with the containers between them on top of the stack. -/
structure Shows (q : Query) (outer : List ContainerId) (c : ContainerId) (v : Visit)
    (d : ContainerId) (D : Container) : Prop where
  /-- The container is live. -/
  found : q.container? d = some D
  /-- The visit shows something of it. -/
  event : v.event ∈ eventsOf d D ∨ v.event = .leave d
  /-- It lies below the one where the walk began. -/
  below : ReflTransGen q.Holds c d
  /-- The containers between them are on the stack. -/
  stack : ∀ a, a ∈ v.stack ↔
    a ∈ outer ∨ (ReflTransGen q.Holds c a ∧ ReflTransGen q.Holds a d)

/-- What a container shows of itself has no more than the container on top of the stack. -/
theorem shows_self (h : q.Nested) (hD : q.container? d = some D) (outer : List ContainerId)
    {v : Visit} {events : List WalkEvent}
    (hv : v ∈ events.map fun event => (⟨event,d :: outer⟩ : Visit))
    (hevents : ∀ e ∈ events, e ∈ eventsOf d D ∨ e = .leave d) : q.Shows outer d v d D := by
  obtain ⟨e,he,rfl⟩ := List.mem_map.mp hv
  refine ⟨hD,hevents e he,.refl,fun a => ?_⟩
  rw [List.mem_cons,or_comm]
  refine or_congr_right ⟨fun ha => ha ▸ ⟨.refl,.refl⟩,fun ⟨hda,had⟩ => ?_⟩
  rcases ReflTransGen.cases_head hda with he|⟨b,hdb,hba⟩
  · exact he.symm
  · have hlt := h.index_lt hdb
    have hle := h.index_le (hba.trans had)
    omega

/-- What is shown below a subquery is shown below the container around it. -/
theorem Shows.outward (h : q.Nested) {outer : List ContainerId} {s : ContainerId} {v : Visit}
    (hs : q.Holds c s) (hv : q.Shows (c :: outer) s v d D) : q.Shows outer c v d D where
  found := hv.found
  event := hv.event
  below := .head hs hv.below
  stack a := by
    rw [hv.stack a,List.mem_cons]
    constructor
    · rintro ((rfl|ha)|⟨hsa,had⟩)
      · exact .inr ⟨.refl,.head hs hv.below⟩
      · exact .inl ha
      · exact .inr ⟨.head hs hsa,had⟩
    · rintro (ha|⟨hca,had⟩)
      · exact .inl (.inr ha)
      · rcases ReflTransGen.cases_head hca with rfl|⟨s',hcs',hsa⟩
        · exact .inl (.inl rfl)
        · rw [h.eq_of_siblings hs hcs' hv.below (hsa.trans had)]
          exact .inr ⟨hsa,had⟩

theorem shows_of_walkBelow (h : q.Nested) (order : WalkOrder) :
    ∀ (depth : Nat) (outer : List ContainerId) (c : ContainerId) (v : Visit),
      v ∈ q.walkBelow order depth outer c → ∃ d D, q.Shows outer c v d D
  | 0, _, _, _, hv => absurd hv List.not_mem_nil
  | depth+1, outer, c, v, hv => by
    cases hC : q.container? c with
    | none =>
      simp only [walkBelow,hC] at hv
      cases hv
    | some C =>
      rcases (mem_walkBelow hC).mp hv with hown|⟨s,hs,hv⟩
      · refine ⟨c,C,shows_self h hC outer (List.mem_map.mpr hown) fun e he => ?_⟩
        exact (List.mem_append.mp he).imp_right List.mem_singleton.mp
      · obtain ⟨d,D,hd⟩ := shows_of_walkBelow h order depth (c :: outer) s v hv
        exact ⟨d,D,hd.outward h ⟨C,hC,hs⟩⟩

/-- A visit of a walk has the containers around what it shows on its stack. -/
theorem shows_of_walk (h : q.Nested) {order : WalkOrder} {v : Visit} (hv : v ∈ q.walk order) :
    ∃ d D, q.container? d = some D ∧ (v.event ∈ eventsOf d D ∨ v.event = .leave d) ∧
      ∀ a, a ∈ v.stack ↔ ReflTransGen q.Holds a d := by
  obtain ⟨d,D,hd⟩ := shows_of_walkBelow h order _ _ _ _ hv
  refine ⟨d,D,hd.found,hd.event,fun a => ?_⟩
  rw [hd.stack a]
  refine ⟨fun ha => (ha.resolve_left List.not_mem_nil).2,fun ha => .inr ⟨?_,ha⟩⟩
  rcases ReflTransGen.cases_head ha with rfl|⟨b,⟨A,hA,-⟩,-⟩
  · exact h.reachable hd.found
  · exact h.reachable hA

/-- A walk comes upon the events of every container. -/
theorem exists_visit_walk (h : q.Nested) (order : WalkOrder) {e : WalkEvent}
    (hD : q.container? d = some D) (he : e ∈ eventsOf d D) : ∃ v ∈ q.walk order, v.event = e :=
  exists_visit order hD he _ [] _ (h.mem_containerIds.mpr (by rw [hD]; rfl))

/-- The event of a member: of a vertex or of an edge. -/
def memberEvent : Bool → ItemId → WalkEvent
  | true => .vertex
  | false => .edge

theorem mem_eventsOf_enter : .enter a ∈ eventsOf d D ↔ a = d := by
  simp [eventsOf,vertexEvents,edgeEvents,declarationEvents,announced]

theorem mem_eventsOf_member {b : Bool} : memberEvent b i ∈ eventsOf d D ↔ i ∈ D.members b := by
  cases b <;> simp [memberEvent,Container.members,eventsOf,vertexEvents,edgeEvents,
    declarationEvents,announced] <;> grind

theorem mem_eventsOf_constraint {k : Constraint} :
    .constraint k ∈ eventsOf d D ↔ k ∈ D.constraints := by
  simp [eventsOf,vertexEvents,edgeEvents,declarationEvents,announced]
  grind

theorem mem_eventsOf_link {l : DerivedLink} : .link l ∈ eventsOf d D ↔ l ∈ D.links := by
  simp [eventsOf,vertexEvents,edgeEvents,declarationEvents,announced]

theorem mem_eventsOf_cached {n s : String} :
    .cached n s ∈ eventsOf d D ↔ (n,s) ∈ D.cached.entries := by
  simp [eventsOf,vertexEvents,edgeEvents,declarationEvents,announced]

theorem memberEvent_ne_leave {b : Bool} : memberEvent b i ≠ .leave d := by
  cases b <;> exact nofun

/-! ## What may be absent -/

/-- The container, or one around it, may be absent. -/
def UnderNegated (q : Query) (c : ContainerId) : Prop :=
  ∃ a, ReflTransGen q.Holds a c ∧ (q.subqueryBounds a).any Annotation.isNegated = true

/-- The item may be absent, by itself or with a container around it. -/
def MayVanish (q : Query) (i : ItemId) : Prop :=
  (q.itemBounds i).any Annotation.isNegated = true ∨ ∃ c, q.itemOwner i = some c ∧ q.UnderNegated c

theorem anyNegated_iff {stack : List ContainerId} (h : ∀ a, a ∈ stack ↔ ReflTransGen q.Holds a d) :
    q.anyNegated stack = true ↔ q.UnderNegated d := by
  rw [anyNegated,List.any_eq_true]
  exact exists_congr fun a => and_congr_left fun _ => h a

theorem itemSatisfies_isNegated (q : Query) (i : ItemId) :
    q.itemSatisfies Item.isNegated i = (q.itemBounds i).any Annotation.isNegated := by
  rw [itemSatisfies,itemBounds]
  cases q.item? i <;> rfl

theorem mayBeAbsent_iff {stack : List ContainerId} (h : ∀ a, a ∈ stack ↔ ReflTransGen q.Holds a d)
    (hi : q.itemOwner i = some d) : q.mayBeAbsent stack i = true ↔ q.MayVanish i := by
  rw [mayBeAbsent,Bool.or_eq_true,anyNegated_iff h,itemSatisfies_isNegated,or_comm]
  refine or_congr_right ⟨fun hd => ⟨d,hi,hd⟩,fun ⟨c,hc,hd⟩ => ?_⟩
  rw [hi] at hc
  cases hc
  exact hd

/-- What lies inside what may be absent may be absent. -/
theorem UnderNegated.below (h : q.UnderNegated c) (hcd : ReflTransGen q.Holds c d) :
    q.UnderNegated d :=
  h.imp fun _ ha => ⟨ha.1.trans hcd,ha.2⟩

/-- A walk finds that a member may be absent exactly if it may be. -/
theorem exists_absent_visit (h : q.WellFormed) {b : Bool} : (∃ visit ∈ q.walk .edgesFirst,
      visit.event = memberEvent b i ∧ q.mayBeAbsent visit.stack i = true) ↔
    (∃ x, q.item? i = some x ∧ x.isVertex = b) ∧ q.MayVanish i := by
  have hshown : ∀ {visit}, visit ∈ q.walk .edgesFirst → visit.event = memberEvent b i →
      ∃ d D, q.container? d = some D ∧ i ∈ D.members b ∧
        ∀ a, a ∈ visit.stack ↔ ReflTransGen q.Holds a d := by
    intro visit hvisit hevent
    obtain ⟨d,D,hD,hshown,hstack⟩ := shows_of_walk h.nested hvisit
    rw [hevent] at hshown
    exact ⟨d,D,hD,mem_eventsOf_member.mp (hshown.resolve_right memberEvent_ne_leave),hstack⟩
  constructor
  · rintro ⟨visit,hvisit,hevent,habsent⟩
    obtain ⟨d,D,hD,hm,hstack⟩ := hshown hvisit hevent
    obtain ⟨x,hx,hxb,hxd⟩ := h.owned.member hD hm
    exact ⟨⟨x,hx,hxb⟩,(mayBeAbsent_iff hstack ((itemOwner_of_some hx).trans hxd)).mp habsent⟩
  · rintro ⟨⟨x,hx,rfl⟩,hvanish⟩
    obtain ⟨c,C,hc,hC,hm⟩ := h.owned.owner hx
    obtain ⟨visit,hvisit,hevent⟩ := exists_visit_walk h.nested .edgesFirst hC
      (mem_eventsOf_member.mpr hm)
    obtain ⟨d,D,hD,hm',hstack⟩ := hshown hvisit hevent
    rw [← (h.owned.mem_unique hC hm hD hm').1] at hstack
    exact ⟨visit,hvisit,hevent,
      (mayBeAbsent_iff hstack ((itemOwner_of_some hx).trans hc)).mpr hvanish⟩

theorem mem_negated_vertices (h : q.WellFormed) :
    v ∈ q.negated.vertices ↔ q.IsVertex v ∧ q.MayVanish v := by
  rw [IsVertex,← exists_absent_visit h,negated,List.mem_filterMap]
  refine exists_congr fun visit => and_congr_right fun _ => ?_
  cases visit.event <;> simp [memberEvent]
  grind

theorem mem_negated_edges (h : q.WellFormed) :
    e ∈ q.negated.edges ↔ q.IsEdge e ∧ q.MayVanish e := by
  rw [IsEdge,← exists_absent_visit h,negated,List.mem_filterMap]
  refine exists_congr fun visit => and_congr_right fun _ => ?_
  cases visit.event <;> simp [memberEvent]
  grind

theorem mem_negated_subqueries (h : q.WellFormed) : c ∈ q.negated.subqueries ↔
    c ≠ .root ∧ (∃ C, q.container? c = some C) ∧ q.UnderNegated c := by
  rw [negated,List.mem_filterMap]
  constructor
  · rintro ⟨visit,hvisit,hc⟩
    obtain ⟨d,D,hD,hevent,hstack⟩ := shows_of_walk h.nested hvisit
    split at hc
    · rename_i w hw
      split at hc
      · rename_i habsent
        cases hc
        rw [hw] at hevent
        cases mem_eventsOf_enter.mp (hevent.resolve_right nofun)
        exact ⟨habsent.1,⟨D,hD⟩,(anyNegated_iff hstack).mp habsent.2⟩
      · cases hc
    · cases hc
  · rintro ⟨hne,⟨C,hC⟩,hunder⟩
    obtain ⟨visit,hvisit,hevent⟩ := exists_visit_walk h.nested .edgesFirst hC
      (mem_eventsOf_enter.mpr rfl)
    obtain ⟨d,D,hD,hshown,hstack⟩ := shows_of_walk h.nested hvisit
    rw [hevent] at hshown
    cases mem_eventsOf_enter.mp (hshown.resolve_right nofun)
    refine ⟨visit,hvisit,?_⟩
    simp only [hevent,ne_eq,hne,not_false_eq_true,(anyNegated_iff hstack).mpr hunder,and_self,
      if_true]

/-! ## The order of what is found -/

/-- A part of what is picked from a list stands in the order of all that is picked. -/
theorem sublist_filterMap {α β : Type} {f g : α → Option β} (h : ∀ a, f a = none ∨ f a = g a)
    (as : List α) : (as.filterMap f).Sublist (as.filterMap g) := by
  induction as with
  | nil => exact .slnil
  | cons a as ih =>
    rw [List.filterMap_cons,List.filterMap_cons]
    rcases h a with hf|hf
    · rw [hf]
      cases g a with
      | none => exact ih
      | some b => exact ih.cons b
    · rw [hf]
      cases g a with
      | none => exact ih
      | some b => exact ih.cons_cons b

/-- A list whose elements are kept or left out stands in the order of the list. -/
theorem sublist_flatMap {α : Type} {f : α → List α} (h : ∀ a, f a = [] ∨ f a = [a])
    (as : List α) : (as.flatMap f).Sublist as := by
  induction as with
  | nil => exact .slnil
  | cons a as ih =>
    rw [List.flatMap_cons]
    rcases h a with hf|hf <;> rw [hf]
    · exact ih.cons a
    · exact ih.cons_cons a

/-- The vertex that a visit comes upon. -/
def vertexVisited? : WalkEvent → Option ItemId
  | .vertex v => some v
  | _ => none

/-- The container that a visit enters. -/
def containerEntered? : WalkEvent → Option ContainerId
  | .enter c => some c
  | _ => none

/-- What a visit picks, by what it comes upon, is picked container by container, if it stands before
the subqueries of its container. -/
theorem filterMap_walkBelow {β : Type} (pick : WalkEvent → Option β)
    (hlate : ∀ C : Container, (edgeEvents C).filterMap pick = [] ∧
      (declarationEvents C).filterMap pick = [])
    (hleave : ∀ c, pick (.leave c) = none) :
    ∀ (depth : Nat) (outer : List ContainerId) (c : ContainerId),
      (q.walkBelow .edgesFirst depth outer c).filterMap (fun visit => pick visit.event) =
        (q.containersBelow depth c).flatMap fun d =>
          (q.container? d).elim [] fun D => (.enter d :: vertexEvents D).filterMap pick
  | 0, _, _ => rfl
  | depth+1, outer, c => by
    cases hC : q.container? c with
    | none => simp [walkBelow,containersBelow,hC]
    | some C =>
      have hhere : ∀ events : List WalkEvent,
          (events.map fun event => (⟨event,c :: outer⟩ : Visit)).filterMap
            (fun visit => pick visit.event) = events.filterMap pick := fun events => by
        rw [List.filterMap_map]
        rfl
      have hlast : [WalkEvent.leave c].filterMap pick = [] := by
        rw [List.filterMap_cons,hleave]
        rfl
      simp only [walkBelow,containersBelow,hC,List.filterMap_append,hhere,(hlate C).1,(hlate C).2,
        hlast,List.nil_append,List.append_nil,List.flatMap_cons,Option.elim_some,
        List.filterMap_flatMap,List.flatMap_assoc]
      congr 1
      exact List.flatMap_congr fun s _ =>
        filterMap_walkBelow pick hlate hleave depth (c :: outer) s

/-- A walk finds each vertex once that may be absent. -/
theorem nodup_negated_vertices (h : q.WellFormed) : q.negated.vertices.Nodup := by
  have hpick : (q.walk .edgesFirst).filterMap (fun visit => vertexVisited? visit.event) =
      q.vertices .whole := by
    rw [walk,filterMap_walkBelow vertexVisited? (fun C => ?_) fun _ => rfl,vertices,containersIn,
      containerIdsIn,containerIds,List.filterMap_eq_flatMap_toList,List.flatMap_assoc]
    · refine List.flatMap_congr fun d _ => ?_
      cases q.container? d with
      | none => rfl
      | some D =>
        have hmap : (D.vertices.map WalkEvent.vertex).filterMap vertexVisited? = D.vertices := by
          rw [List.filterMap_map]
          exact List.filterMap_some
        simp only [Option.elim_some,vertexEvents,announced,Option.toList_some,List.flatMap_cons,
          List.flatMap_nil,List.append_nil]
        split
        · rename_i hnone
          rw [List.filterMap_cons_none rfl,List.isEmpty_iff.mp hnone]
          rfl
        · rw [List.filterMap_cons_none rfl,List.filterMap_cons_none rfl,hmap]
    · simp [edgeEvents,declarationEvents,announced,vertexVisited?]; grind [vertexVisited?]
  refine List.Nodup.sublist ?_ (hpick ▸ h.nodup_vertices)
  refine sublist_filterMap (fun visit => ?_) _
  cases visit.event <;> simp [vertexVisited?]

/-- A walk finds a subquery that may be absent before those inside it, and each of them once. -/
theorem ordered_negated_subqueries (h : q.WellFormed) :
    q.negated.subqueries.Pairwise fun a b => a ≠ b ∧ ¬q.Holds b a := by
  have hpick : ((q.walk .edgesFirst).filterMap fun visit => containerEntered? visit.event).Sublist
      q.containerIds := by
    rw [walk,filterMap_walkBelow containerEntered? (fun C => ?_) fun _ => rfl]
    · exact sublist_flatMap (fun d => by
        cases q.container? d with
        | none => exact .inl rfl
        | some D => simp [vertexEvents,announced,containerEntered?]; grind [containerEntered?]) _
    · simp [edgeEvents,declarationEvents,announced,containerEntered?]; grind [containerEntered?]
  obtain ⟨R,hR,-⟩ := h.nested.root
  have hordered := (h.nested.nodup_containerIds.and
    (h.nested.ordered_containersBelow hR
      (Nat.le_add_left q.containers.next ContainerId.root.index)))
  refine (hordered.sublist hpick).sublist ?_
  refine sublist_filterMap (fun visit => ?_) _
  cases visit.event <;> simp [containerEntered?]
  grind

end GraphPattern.Query
