import GraphPattern.Proofs.Query.Cached
import GraphPattern.Proofs.Validation.Walk

/-!
# What a walk visits

A walk begins and ends containers like brackets that lie in each other as the containers do, and
every visit knows the containers that have begun and not ended. Between its brackets and outside its
subqueries a container shows its members, section by section. The two orders of a walk differ in
nothing but the place of the subqueries.
-/

namespace GraphPattern

/-- The event happens inside a container: none begins or ends. -/
def WalkEvent.isInner : WalkEvent → Bool
  | enter _ | leave _ => false
  | _ => true

/-- The name of the cached item that an event shows. -/
def WalkEvent.cachedName? : WalkEvent → Option String
  | cached item _ => some item
  | _ => none

namespace Query

open Relation

variable {q : Query} {order : WalkOrder} {outer s t u : List ContainerId} {visits : List Visit}
  {c d p : ContainerId} {C D : Container} {depth : Nat} {event : WalkEvent} {b : Bool} {i : ItemId}

/-! ## Brackets -/

/-- Visits lead from some open containers to others, the innermost of them first: the root begins, a
subquery begins directly inside the innermost open container, that container ends, or something
happens inside it. Every visit knows the open containers. -/
inductive Brackets (q : Query) : List ContainerId → List Visit → List ContainerId → Prop
  /-- Nothing happens. -/
  | done (s : List ContainerId) : Brackets q s [] s
  /-- The root begins. -/
  | root {visits : List Visit} {t : List ContainerId} :
    Brackets q [.root] visits t → Brackets q [] (⟨.enter .root,[.root]⟩ :: visits) t
  /-- A subquery begins. -/
  | enter {p c : ContainerId} {s t : List ContainerId} {visits : List Visit} : q.Holds p c →
    Brackets q (c :: p :: s) visits t → Brackets q (p :: s) (⟨.enter c,c :: p :: s⟩ :: visits) t
  /-- A container ends. -/
  | leave {c : ContainerId} {s t : List ContainerId} {visits : List Visit} :
    Brackets q s visits t → Brackets q (c :: s) (⟨.leave c,c :: s⟩ :: visits) t
  /-- Something happens inside a container. -/
  | inside {event : WalkEvent} {c : ContainerId} {s t : List ContainerId} {visits : List Visit} :
    event.isInner = true → Brackets q (c :: s) visits t →
      Brackets q (c :: s) (⟨event,c :: s⟩ :: visits) t

theorem Brackets.append {visits' : List Visit} (h : q.Brackets s visits t)
    (h' : q.Brackets t visits' u) : q.Brackets s (visits ++ visits') u := by
  induction h with
  | done s => exact h'
  | root _ ih => exact .root (ih h')
  | enter hc _ ih => exact .enter hc (ih h')
  | leave _ ih => exact .leave (ih h')
  | inside hi _ ih => exact .inside hi (ih h')

/-- Brackets that are closed stand beside each other. -/
theorem brackets_flatMap {α : Type} {f : α → List Visit} {as : List α}
    (h : ∀ a ∈ as, q.Brackets s (f a) s) : q.Brackets s (as.flatMap f) s := by
  induction as with
  | nil => exact .done s
  | cons a as ih =>
    rw [List.flatMap_cons]
    exact (h a List.mem_cons_self).append (ih fun a' ha' => h a' (List.mem_cons_of_mem _ ha'))

theorem brackets_inside {events : List WalkEvent} (h : ∀ e ∈ events, e.isInner = true)
    (c : ContainerId) (s : List ContainerId) :
    q.Brackets (c :: s) (events.map fun event => ⟨event,c :: s⟩) (c :: s) := by
  induction events with
  | nil => exact .done _
  | cons e events ih =>
    exact .inside (h e List.mem_cons_self) (ih fun e' he' => h e' (List.mem_cons_of_mem _ he'))

/-- What a container shows between its brackets. -/
theorem isInner_of_mem {e : WalkEvent}
    (he : e ∈ vertexEvents C ∨ e ∈ edgeEvents C ∨ e ∈ declarationEvents C) : e.isInner = true := by
  have hannounced : ∀ {α : Type} {heading : WalkEvent} {event : α → WalkEvent} {members : List α},
      heading.isInner = true → (∀ a, (event a).isInner = true) →
        e ∈ announced heading event members → e.isInner = true := by
    intro α heading event members hh hev hm
    rw [announced] at hm
    split at hm
    · cases hm
    · rcases List.mem_cons.mp hm with rfl|hm
      · exact hh
      · obtain ⟨a,-,rfl⟩ := List.mem_map.mp hm
        exact hev a
  rcases he with he|he|he
  · exact hannounced rfl (fun _ => rfl) he
  · exact hannounced rfl (fun _ => rfl) he
  · rcases List.mem_append.mp he with he|he
    · rcases List.mem_append.mp he with he|he
      · exact hannounced rfl (fun _ => rfl) he
      · obtain ⟨l,-,rfl⟩ := List.mem_map.mp he
        rfl
    · obtain ⟨⟨n,m⟩,-,rfl⟩ := List.mem_map.mp he
      rfl

/-- A walk that begins at the root, or at a subquery of the innermost open container, leaves the
containers open that were. -/
theorem brackets_walkBelow (order : WalkOrder) : ∀ (depth : Nat) (outer : List ContainerId)
    (c : ContainerId), outer = [] ∧ c = .root ∨ (∃ p s, outer = p :: s ∧ q.Holds p c) →
      q.Brackets outer (q.walkBelow order depth outer c) outer
  | 0, outer, _, _ => .done outer
  | depth+1, outer, c, houter => by
    cases hC : q.container? c with
    | none =>
      simp only [walkBelow,hC]
      exact .done outer
    | some C =>
      have hbegin : ∀ {visits t}, q.Brackets (c :: outer) visits t →
          q.Brackets outer (⟨.enter c,c :: outer⟩ :: visits) t := fun hvisits => by
        rcases houter with ⟨rfl,rfl⟩|⟨p,s,rfl,hp⟩
        · exact .root hvisits
        · exact .enter hp hvisits
      have hvertices : q.Brackets (c :: outer)
          ((vertexEvents C).map fun event => ⟨event,c :: outer⟩) (c :: outer) :=
        brackets_inside (fun e he => isInner_of_mem (.inl he)) c outer
      have hedges : q.Brackets (c :: outer)
          ((edgeEvents C).map fun event => ⟨event,c :: outer⟩) (c :: outer) :=
        brackets_inside (fun e he => isInner_of_mem (.inr (.inl he))) c outer
      have hinner : q.Brackets (c :: outer)
          (C.subqueries.flatMap (q.walkBelow order depth (c :: outer))) (c :: outer) :=
        brackets_flatMap fun s hs =>
          brackets_walkBelow order depth (c :: outer) s (.inr ⟨c,outer,rfl,C,hC,hs⟩)
      have hlast : q.Brackets (c :: outer)
          ((declarationEvents C ++ [WalkEvent.leave c]).map fun event => ⟨event,c :: outer⟩) outer := by
        rw [List.map_append]
        exact (brackets_inside (fun e he => isInner_of_mem (.inr (.inr he))) c outer).append
          (.leave (.done outer))
      simp only [walkBelow,hC]
      rw [List.map_cons,List.cons_append,List.cons_append]
      refine hbegin (Brackets.append (hvertices.append ?_) hlast)
      cases order with
      | edgesFirst => exact hedges.append hinner
      | subqueriesFirst => exact hinner.append hedges

/-- Every container lies directly inside the next one, and the last one is the root. -/
def Outward (q : Query) (stack : List ContainerId) : Prop :=
  stack.IsChain (fun c p => q.Holds p c) ∧ stack.getLast? = some .root

theorem outward_root (q : Query) : q.Outward [.root] := ⟨.singleton _,rfl⟩

theorem Outward.enter (h : q.Outward (p :: s)) (hc : q.Holds p c) : q.Outward (c :: p :: s) :=
  ⟨List.isChain_cons_cons.mpr ⟨hc,h.1⟩,by rw [List.getLast?_cons_cons,h.2]⟩

theorem Outward.leave (h : q.Outward (c :: s)) : s = [] ∨ q.Outward s := by
  cases s with
  | nil => exact .inl rfl
  | cons p s =>
    obtain ⟨hchain,hlast⟩ := h
    rw [List.getLast?_cons_cons] at hlast
    exact .inr ⟨(List.isChain_cons_cons.mp hchain).2,hlast⟩

/-- The open containers lie in each other, up to the root. -/
theorem Brackets.outward (h : q.Brackets s visits t) (hs : s = [] ∨ q.Outward s) :
    ∀ v ∈ visits, q.Outward v.stack := by
  have hopen : ∀ {c : ContainerId} {s : List ContainerId}, c :: s = [] ∨ q.Outward (c :: s) →
      q.Outward (c :: s) := fun h => h.resolve_left (List.cons_ne_nil _ _)
  induction h with
  | done s => exact fun v hv => absurd hv List.not_mem_nil
  | root _ ih =>
    exact List.forall_mem_cons.mpr ⟨q.outward_root,ih (.inr q.outward_root)⟩
  | enter hc _ ih =>
    have hnew := (hopen hs).enter hc
    exact List.forall_mem_cons.mpr ⟨hnew,ih (.inr hnew)⟩
  | leave _ ih => exact List.forall_mem_cons.mpr ⟨hopen hs,ih (hopen hs).leave⟩
  | inside _ _ ih => exact List.forall_mem_cons.mpr ⟨hopen hs,ih hs⟩

/-! ## What belongs to a container -/

/-- If a test fails inside the subqueries, the visits that pass it are those of the container itself,
in their order. -/
theorem filter_walkBelow_own (hC : q.container? c = some C) {test : Visit → Bool}
    (h : ∀ s ∈ C.subqueries, ∀ v ∈ q.walkBelow order depth (c :: outer) s, test v = false) :
    (q.walkBelow order (depth+1) outer c).filter test =
      ((ownEvents c C).map fun event => (⟨event,c :: outer⟩ : Visit)).filter test := by
  have hinner : (C.subqueries.flatMap (q.walkBelow order depth (c :: outer))).filter test = [] := by
    refine List.filter_eq_nil_iff.mpr fun v hv => ?_
    obtain ⟨s,hs,hv⟩ := List.mem_flatMap.mp hv
    rw [h s hs v hv]
    exact Bool.false_ne_true
  simp only [walkBelow,hC,ownEvents,eventsOf,List.map_append,List.filter_append]
  cases order <;> simp only [List.filter_append,hinner,List.nil_append,List.append_nil,
    List.append_assoc]

/-- If a test fails for all that belongs to a container itself, the visits that pass it are those
inside the subqueries. -/
theorem filter_walkBelow_inner (hC : q.container? c = some C) {test : Visit → Bool}
    (h : ∀ e, test ⟨e,c :: outer⟩ = false) :
    (q.walkBelow order (depth+1) outer c).filter test =
      C.subqueries.flatMap fun s => (q.walkBelow order depth (c :: outer) s).filter test := by
  have hown : ∀ events : List WalkEvent,
      (events.map fun event => (⟨event,c :: outer⟩ : Visit)).filter test = [] := fun events => by
    refine List.filter_eq_nil_iff.mpr fun v hv => ?_
    obtain ⟨e,-,rfl⟩ := List.mem_map.mp hv
    rw [h e]
    exact Bool.false_ne_true
  simp only [walkBelow,hC,List.filter_append,hown]
  cases order <;> simp only [List.filter_append,hown,List.nil_append,List.append_nil,
    List.filter_flatMap]

/-- The innermost container of a visit is one below the container where the walk began. -/
theorem below_of_walkBelow : ∀ (depth : Nat) (outer : List ContainerId) (c : ContainerId) (v : Visit),
    v ∈ q.walkBelow order depth outer c → ReflTransGen q.Holds c v.current
  | 0, _, _, _, hv => absurd hv List.not_mem_nil
  | depth+1, outer, c, v, hv => by
    cases hC : q.container? c with
    | none =>
      simp only [walkBelow,hC] at hv
      cases hv
    | some C =>
      rcases (mem_walkBelow hC).mp hv with ⟨e,-,rfl⟩|⟨s,hs,hv⟩
      · exact .refl
      · exact .head ⟨C,hC,hs⟩ (below_of_walkBelow depth (c :: outer) s v hv)

/-- One element of a list yields all that is yielded. -/
theorem flatMap_of_unique {α β : Type} {f : α → List β} {a : α} {as : List α} (has : as.Nodup)
    (ha : a ∈ as) (h : ∀ a' ∈ as, a' ≠ a → f a' = []) : as.flatMap f = f a := by
  obtain ⟨front,back,rfl⟩ := List.append_of_mem ha
  obtain ⟨-,hback,hfront⟩ := List.nodup_append.mp has
  have hnil : ∀ {l : List α}, (∀ a' ∈ l, f a' = []) → l.flatMap f = [] := fun hl =>
    List.flatMap_eq_nil_iff.mpr hl
  rw [List.flatMap_append,List.flatMap_cons,hnil fun a' ha' => ?_,hnil fun a' ha' => ?_,
    List.nil_append,List.append_nil]
  · refine h a' (List.mem_append_right _ (List.mem_cons_of_mem _ ha')) fun he => ?_
    exact (List.nodup_cons.mp hback).1 (he ▸ ha')
  · exact h a' (List.mem_append_left _ ha') (hfront a' ha' a List.mem_cons_self)

/-- A walk shows what belongs to a container in one piece, apart from the subqueries. -/
theorem filter_current (h : q.Nested) (hD : q.container? d = some D) (order : WalkOrder) :
    ∀ (depth : Nat) (outer : List ContainerId) (c : ContainerId) (C : Container),
      q.container? c = some C → q.containers.next≤c.index+depth → ReflTransGen q.Holds c d →
        ∃ rest, (q.walkBelow order depth outer c).filter (fun v => v.current = d) =
          (ownEvents d D).map fun event => ⟨event,d :: rest⟩
  | 0, outer, c, C, hC, hdepth, _ => absurd (index_lt_of_container? hC) (by omega)
  | depth+1, outer, c, C, hC, hdepth, hcd => by
    rcases ReflTransGen.cases_head hcd with rfl|⟨s,⟨C',hC',hs⟩,hsd⟩
    · rw [hC] at hD
      cases hD
      refine ⟨outer,?_⟩
      rw [filter_walkBelow_own hC fun s hs v hv => ?_]
      · refine List.filter_eq_self.mpr fun v hv => ?_
        obtain ⟨e,-,rfl⟩ := List.mem_map.mp hv
        exact decide_eq_true rfl
      · refine decide_eq_false fun he => ?_
        have hle := h.index_le (below_of_walkBelow depth (c :: outer) s v hv)
        have hlt := h.below hC hs
        rw [he] at hle
        omega
    · rw [hC] at hC'
      cases hC'
      have hlt := h.below hC hs
      have hne : c ≠ d := fun he => by
        have hle := h.index_le hsd
        rw [← he] at hle
        omega
      obtain ⟨S,hS,-⟩ := h.child hC hs
      obtain ⟨rest,hrest⟩ := filter_current h hD order depth (c :: outer) s S hS (by omega) hsd
      refine ⟨rest,?_⟩
      rw [filter_walkBelow_inner hC fun e => decide_eq_false hne,
        flatMap_of_unique (h.nodup hC) hs fun s' hs' hne' => ?_,hrest]
      refine List.filter_eq_nil_iff.mpr fun v hv he => hne' ?_
      have hbelow := below_of_walkBelow depth (c :: outer) s' v hv
      rw [of_decide_eq_true he] at hbelow
      exact h.eq_of_siblings ⟨C,hC,hs'⟩ ⟨C,hC,hs⟩ hbelow hsd

/-- The two orders show the same. -/
theorem perm_orders : ∀ (depth : Nat) (outer : List ContainerId) (c : ContainerId),
    (q.walkBelow .edgesFirst depth outer c).Perm (q.walkBelow .subqueriesFirst depth outer c)
  | 0, _, _ => .refl _
  | depth+1, outer, c => by
    cases hC : q.container? c with
    | none =>
      simp only [walkBelow,hC]
      exact .refl _
    | some C =>
      have hinner := List.Perm.flatMap_left C.subqueries fun s _ => perm_orders depth (c :: outer) s
      exact ((perm_walkBelow hC _ depth outer).trans (hinner.append_left _)).trans
        (perm_walkBelow hC _ depth outer).symm

/-! ## Subqueries before edges -/

/-- The second visit does not show a vertex inside a container of which the first one shows an
edge. -/
def NotAhead (u v : Visit) : Prop :=
  ∀ e i, u.event = .edge e → v.event = .vertex i → u.current ∉ v.stack

theorem not_edge_of_mem {e : WalkEvent} (he : e = .enter c ∨ e ∈ vertexEvents C) (j : ItemId) :
    e ≠ .edge j := by
  rintro rfl
  rcases he with he|he
  · cases he
  · simp [vertexEvents,announced] at he

theorem not_vertex_of_mem {e : WalkEvent}
    (he : e ∈ edgeEvents C ∨ e ∈ declarationEvents C ++ [.leave c]) (j : ItemId) :
    e ≠ .vertex j := by
  rintro rfl
  rcases he with he|he
  · simp [edgeEvents,announced] at he
  · simp [declarationEvents,announced] at he

/-- If the subqueries come before the edges, no edge is ahead of a vertex inside its container. -/
theorem pairwise_notAhead (h : q.Nested) : ∀ (depth : Nat) (outer : List ContainerId)
    (c : ContainerId), (∀ a ∈ outer, a.index<c.index) →
      (q.walkBelow .subqueriesFirst depth outer c).Pairwise NotAhead
  | 0, _, _, _ => .nil
  | depth+1, outer, c, houter => by
    cases hC : q.container? c with
    | none =>
      simp only [walkBelow,hC]
      exact .nil
    | some C =>
      have habove : ∀ s ∈ C.subqueries, ∀ a ∈ c :: outer, a.index<s.index := fun s hs a ha => by
        have hlt := h.below hC hs
        rcases List.mem_cons.mp ha with rfl|ha
        · exact hlt
        · exact (houter a ha).trans hlt
      -- What is shown inside one subquery is not inside another one.
      have hinner : (C.subqueries.flatMap (q.walkBelow .subqueriesFirst depth (c :: outer))).Pairwise
          NotAhead := by
        refine List.pairwise_flatMap.mpr ⟨fun s hs => pairwise_notAhead h depth (c :: outer) s
          (habove s hs),(h.nodup hC).imp_of_mem fun {s s'} hs hs' hne u hu v hv e i _ _ hm => ?_⟩
        have hsu := below_of_walkBelow depth (c :: outer) s u hu
        obtain ⟨d,D,hshown⟩ := shows_of_walkBelow h .subqueriesFirst depth (c :: outer) s' v hv
        rcases (hshown.stack u.current).mp hm with ha|⟨hs'u,-⟩
        · have hlt := habove s hs _ ha
          have hle := h.index_le hsu
          omega
        · exact hne (h.eq_of_siblings ⟨C,hC,hs⟩ ⟨C,hC,hs'⟩ hsu hs'u)
      -- Before the subqueries there is no edge, and behind them no vertex.
      have hfront : ∀ u ∈ (.enter c :: vertexEvents C).map fun event => (⟨event,c :: outer⟩ : Visit),
          ∀ v, NotAhead u v := fun u hu v e i he _ => by
        obtain ⟨e',he',rfl⟩ := List.mem_map.mp hu
        exact absurd he (not_edge_of_mem (List.mem_cons.mp he') e)
      have hback : ∀ {events : List WalkEvent}, (∀ e ∈ events,
          e ∈ edgeEvents C ∨ e ∈ declarationEvents C ++ [.leave c]) →
            ∀ v ∈ events.map fun event => (⟨event,c :: outer⟩ : Visit), ∀ u, NotAhead u v :=
        fun hevents v hv u e i _ hi => by
          obtain ⟨e',he',rfl⟩ := List.mem_map.mp hv
          exact absurd hi (not_vertex_of_mem (hevents e' he') i)
      have hedges := hback fun e he => .inl he
      have hlast := hback fun e he => .inr he
      simp only [walkBelow,hC]
      refine List.pairwise_append.mpr ⟨List.pairwise_append.mpr ⟨?_,List.pairwise_append.mpr
        ⟨hinner,?_,fun u _ v hv => hedges v hv u⟩,fun u hu v _ => hfront u hu v⟩,?_,
          fun u _ v hv => hlast v hv u⟩
      · exact List.pairwise_of_forall_mem_list fun u hu v _ => hfront u hu v
      · exact List.pairwise_of_forall_mem_list fun u _ v hv => hedges v hv u
      · exact List.pairwise_of_forall_mem_list fun u _ v hv => hlast v hv u

/-! ## Single visits -/

/-- The event of a member stands once among what belongs to its container. -/
theorem count_ownEvents_member (c : ContainerId) (hn : (C.members b).Nodup) (hi : i ∈ C.members b) :
    (ownEvents c C).count (memberEvent b i) = 1 := by
  have hmember : ∀ {heading : WalkEvent}, heading ≠ memberEvent b i →
      (announced heading (memberEvent b) (C.members b)).count (memberEvent b i) = 1 := by
    intro heading hh
    have hinj : Function.Injective (memberEvent b) := fun j j' he => by
      cases b <;> (cases he; rfl)
    rw [announced,if_neg (by simp [List.ne_nil_of_mem hi]),List.count_cons_of_ne hh]
    exact List.count_eq_one_of_mem (hn.map hinj) (List.mem_map_of_mem hi)
  have hzero : ∀ {events : List WalkEvent}, memberEvent b i ∉ events →
      events.count (memberEvent b i) = 0 := List.count_eq_zero_of_not_mem
  have hdeclared : memberEvent b i ∉ declarationEvents C := by
    cases b <;> simp [declarationEvents,announced,memberEvent]
  have hleave : memberEvent b i ∉ [WalkEvent.leave c] := by
    simp [memberEvent_ne_leave]
  rw [ownEvents,eventsOf,List.count_append,List.count_append,List.count_append,hzero hdeclared,
    hzero hleave]
  cases b with
  | true =>
    have hedges : memberEvent true i ∉ edgeEvents C := by simp [edgeEvents,announced,memberEvent]
    have henter : WalkEvent.enter c ≠ memberEvent true i := WalkEvent.noConfusion
    rw [hzero hedges,List.count_cons_of_ne henter]
    exact hmember WalkEvent.noConfusion
  | false =>
    have hvertices : memberEvent false i ∉ .enter c :: vertexEvents C := by
      simp [vertexEvents,announced,memberEvent]
    rw [hzero hvertices,Nat.zero_add]
    exact hmember WalkEvent.noConfusion

/-- A container begins once and ends once among what belongs to it. -/
theorem count_ownEvents_ends (c : ContainerId) (C : Container) :
    (ownEvents c C).count (.enter c) = 1 ∧ (ownEvents c C).count (.leave c) = 1 := by
  have hzero : ∀ e, e = WalkEvent.enter c ∨ e = .leave c →
      (vertexEvents C ++ edgeEvents C ++ declarationEvents C).count e = 0 := by
    intro e he
    refine List.count_eq_zero_of_not_mem fun hm => ?_
    have hinner : e.isInner = true := by
      rcases List.mem_append.mp hm with hm|hm
      · exact isInner_of_mem ((List.mem_append.mp hm).imp_right .inl)
      · exact isInner_of_mem (.inr (.inr hm))
    rcases he with rfl|rfl <;> cases hinner
  have hown : ownEvents c C =
      .enter c :: (vertexEvents C ++ edgeEvents C ++ declarationEvents C ++ [.leave c]) := rfl
  have henter : WalkEvent.enter c ≠ .leave c := WalkEvent.noConfusion
  rw [hown,List.count_cons_self,List.count_append,hzero _ (.inl rfl),
    List.count_cons_of_ne henter.symm,List.count_nil,List.count_cons_of_ne henter,List.count_append,
    hzero _ (.inr rfl),List.count_singleton_self]
  exact ⟨rfl,rfl⟩

theorem mem_ownEvents_enter {a : ContainerId} : .enter a ∈ ownEvents d D ↔ a = d := by
  simp [ownEvents,mem_eventsOf_enter]

theorem mem_ownEvents_leave {a : ContainerId} : .leave a ∈ ownEvents d D ↔ a = d := by
  simp [ownEvents,eventsOf,vertexEvents,edgeEvents,declarationEvents,announced]

theorem mem_ownEvents_member : memberEvent b i ∈ ownEvents d D ↔ i ∈ D.members b := by
  rw [ownEvents,List.mem_append,mem_eventsOf_member,List.mem_singleton]
  exact or_iff_left memberEvent_ne_leave

/-- What stands once among what belongs to a container, and belongs to no other one, is shown once. -/
theorem filter_event {rest : List ContainerId}
    (hown : visits.filter (fun v => v.current = d) =
      (ownEvents d D).map fun event => ⟨event,d :: rest⟩)
    (hd : ∀ v ∈ visits, v.event = event → v.current = d) (hone : (ownEvents d D).count event = 1) :
    visits.filter (fun v => v.event = event) = [⟨event,d :: rest⟩] := by
  have hfilter : visits.filter (fun v => v.event = event) =
      (visits.filter fun v => v.current = d).filter fun v => v.event = event := by
    rw [List.filter_filter]
    refine List.filter_congr fun v hv => ?_
    by_cases he : v.event = event
    · simp [he,hd v hv he]
    · simp [he]
  have hsame : ((fun v : Visit => decide (v.event = event)) ∘
      fun e => (⟨e,d :: rest⟩ : Visit)) = (· == event) := funext fun _ => rfl
  rw [hfilter,hown,List.filter_map,hsame,List.filter_beq,hone]
  rfl

theorem cachedNames_ownEvents (c : ContainerId) (C : Container) :
    (ownEvents c C).filterMap WalkEvent.cachedName? = C.cached.keys := by
  have hannounced : ∀ {α : Type} {heading : WalkEvent} {event : α → WalkEvent} {members : List α},
      heading.cachedName? = none → (∀ a, (event a).cachedName? = none) →
        (announced heading event members).filterMap WalkEvent.cachedName? = [] := by
    intro α heading event members hh hev
    refine List.filterMap_eq_nil_iff.mpr fun e he => ?_
    rw [announced] at he
    split at he
    · cases he
    · rcases List.mem_cons.mp he with rfl|he
      · exact hh
      · obtain ⟨a,-,rfl⟩ := List.mem_map.mp he
        exact hev a
  have hvertices : (vertexEvents C).filterMap WalkEvent.cachedName? = [] :=
    hannounced rfl fun _ => rfl
  have hedges : (edgeEvents C).filterMap WalkEvent.cachedName? = [] := hannounced rfl fun _ => rfl
  have hconstraints : (announced .constraints .constraint C.constraints).filterMap
      WalkEvent.cachedName? = [] := hannounced rfl fun _ => rfl
  have hlinks : (C.links.map WalkEvent.link).filterMap WalkEvent.cachedName? = [] := by
    rw [List.filterMap_map]
    exact List.filterMap_eq_nil_iff.mpr fun _ _ => rfl
  have hcached : (C.cached.entries.map fun e => WalkEvent.cached e.1 e.2).filterMap
      WalkEvent.cachedName? = C.cached.keys := by
    rw [List.filterMap_map,OrderedMap.keys,← List.filterMap_eq_map]
    rfl
  have hown : ownEvents c C = .enter c :: (vertexEvents C ++ (edgeEvents C ++
      (announced .constraints .constraint C.constraints ++ (C.links.map WalkEvent.link ++
        ((C.cached.entries.map fun e => .cached e.1 e.2) ++ [.leave c]))))) := by
    simp only [ownEvents,eventsOf,declarationEvents,List.append_assoc,List.cons_append]
  have hlast : [WalkEvent.leave c].filterMap WalkEvent.cachedName? = [] := rfl
  rw [hown,List.filterMap_cons_none rfl,List.filterMap_append,hvertices,List.filterMap_append,hedges,
    List.filterMap_append,hconstraints,List.filterMap_append,hlinks,List.filterMap_append,hcached,
    hlast,List.append_nil]
  rfl

/-! ## The whole walk -/

/-- Every container, and everything that belongs to it, is visited once and in its place. -/
structure Toured (q : Query) (visits : List Visit) : Prop where
  /-- Containers begin and end like brackets, and every visit knows the open ones. -/
  brackets : q.Brackets [] visits []
  /-- They are the containers around the visit, from the innermost to the root. -/
  outward : ∀ v ∈ visits, q.Outward v.stack ∧ v.depth + 1 = v.stack.length
  /-- What is shown belongs to the innermost container, which is live. -/
  live : ∀ v ∈ visits, ∃ C, q.container? v.current = some C
  /-- What belongs to a container is shown in order, beginning and ending with the container. -/
  own : ∀ {c C}, q.container? c = some C → ∃ rest, visits.filter (fun v => v.current = c) =
    (ownEvents c C).map fun event => ⟨event,c :: rest⟩
  /-- A container begins and ends once. -/
  once : ∀ {c C}, q.container? c = some C → ∃ rest,
    visits.filter (fun v => v.event = .enter c) = [⟨.enter c,c :: rest⟩] ∧
      visits.filter (fun v => v.event = .leave c) = [⟨.leave c,c :: rest⟩]
  /-- A vertex or an edge is shown once, in the container that owns it. -/
  member : ∀ {i x}, q.item? i = some x → ∃ c rest, x.container = some c ∧
    visits.filter (fun v => v.event = memberEvent x.isVertex i) =
      [⟨memberEvent x.isVertex i,c :: rest⟩]
  /-- The cached entries of a container come in the order of their names. -/
  cached : ∀ {c C}, q.container? c = some C →
    ((visits.filter fun v => v.current = c).filterMap fun v => v.event.cachedName?).Pairwise (· < ·)

/-- In either order a walk visits everything once and in its place. The two orders visit the same, and
with the subqueries before the edges no edge of a container comes before a vertex inside it. -/
theorem walk_toured (h : q.WellFormed) (hs : q.Shelved) : (∀ order, q.Toured (q.walk order)) ∧
    (q.walk .edgesFirst).Perm (q.walk .subqueriesFirst) ∧
      (q.walk .subqueriesFirst).Pairwise NotAhead := by
  refine ⟨fun order => ?_,perm_orders _ _ _,pairwise_notAhead h.nested _ _ _ (by simp)⟩
  obtain ⟨R,hR,-⟩ := h.nested.root
  have hown : ∀ {d D}, q.container? d = some D → ∃ rest,
      (q.walk order).filter (fun v => v.current = d) =
        (ownEvents d D).map fun event => ⟨event,d :: rest⟩ := fun hD =>
    filter_current h.nested hD order _ _ _ R hR (Nat.le_add_left _ _) (h.nested.reachable hD)
  have hlive : ∀ v ∈ q.walk order, ∃ C, q.container? v.current = some C := fun v hv =>
    Option.isSome_iff_exists.mp (h.nested.live_of_reachable (below_of_walkBelow _ _ _ v hv)
      (by rw [hR]; rfl))
  -- What is shown belongs to the innermost container.
  have hshown : ∀ v ∈ q.walk order, ∃ C, q.container? v.current = some C ∧
      v.event ∈ ownEvents v.current C := fun v hv => by
    obtain ⟨C,hC⟩ := hlive v hv
    obtain ⟨rest,hrest⟩ := hown hC
    have hm : v ∈ (q.walk order).filter fun u => u.current = v.current :=
      List.mem_filter.mpr ⟨hv,decide_eq_true rfl⟩
    rw [hrest] at hm
    obtain ⟨e,he,heq⟩ := List.mem_map.mp hm
    refine ⟨C,hC,?_⟩
    rw [← congrArg Visit.event heq]
    exact he
  have hbrackets := brackets_walkBelow (q:=q) order q.containers.next [] .root (.inl ⟨rfl,rfl⟩)
  refine ⟨hbrackets,fun v hv => ?_,hlive,hown,fun {c C} hC => ?_,fun {i x} hx => ?_,
    fun {c C} hC => ?_⟩
  · have hout := hbrackets.outward (.inl rfl) v hv
    refine ⟨hout,?_⟩
    have hne : v.stack ≠ [] := fun he => by
      rw [Outward,he] at hout
      cases hout.2
    have hpos := List.length_pos_iff.mpr hne
    rw [Visit.depth]
    omega
  · obtain ⟨rest,hrest⟩ := hown hC
    obtain ⟨hbegin,hend⟩ := count_ownEvents_ends c C
    refine ⟨rest,filter_event hrest (fun v hv he => ?_) hbegin,
      filter_event hrest (fun v hv he => ?_) hend⟩
    · obtain ⟨D,-,hm⟩ := hshown v hv
      rw [he] at hm
      exact (mem_ownEvents_enter.mp hm).symm
    · obtain ⟨D,-,hm⟩ := hshown v hv
      rw [he] at hm
      exact (mem_ownEvents_leave.mp hm).symm
  · obtain ⟨c,C,hc,hC,hi⟩ := h.owned.owner hx
    obtain ⟨rest,hrest⟩ := hown hC
    refine ⟨c,rest,hc,filter_event hrest (fun v hv he => ?_)
      (count_ownEvents_member c (h.owned.nodup _ hC) hi)⟩
    obtain ⟨D,hD,hm⟩ := hshown v hv
    rw [he] at hm
    exact (h.owned.mem_unique hD (mem_ownEvents_member.mp hm) hC hi).1
  · obtain ⟨rest,hrest⟩ := hown hC
    rw [hrest,List.filterMap_map]
    exact (cachedNames_ownEvents c C).symm ▸ hs c C hC

/-- A vertex around a subquery with a vertex and an edge to it, and two cached items. -/
def annotatedPair : Query := (bare "q" "").edited
  [.addVertex .root ⟨.bare ["X"] (.vertex false []),@Item.Made.vertex "X" _ rfl⟩,
    .addSubquery .root (some ⟨some 0,some 0⟩),
    .addVertex ⟨1⟩ ⟨.bare ["Y"] (.vertex false []),@Item.Made.vertex "Y" _ rfl⟩,
    .addEdge .root ⟨.bare ["e"] (.edge ⟨none,none,"X","Y",true⟩),
      @Item.Made.edge "e" "X" "Y" true _ rfl⟩,
    .addCachedItem .root "Y" "late",.addCachedItem .root "X" "early"]

/-- The vertex of the subquery comes before the edge, with both containers around it, and the cached
items come by their names. -/
theorem walk_toured_annotatedPair : annotatedPair.WellFormed ∧ annotatedPair.Shelved ∧
    (∀ order, annotatedPair.Toured (annotatedPair.walk order)) ∧
      annotatedPair.walk .subqueriesFirst =
        [⟨.enter .root,[.root]⟩,⟨.vertices,[.root]⟩,⟨.vertex ⟨0⟩,[.root]⟩,
          ⟨.enter ⟨1⟩,[⟨1⟩,.root]⟩,⟨.vertices,[⟨1⟩,.root]⟩,⟨.vertex ⟨1⟩,[⟨1⟩,.root]⟩,
          ⟨.leave ⟨1⟩,[⟨1⟩,.root]⟩,⟨.edges,[.root]⟩,⟨.edge ⟨2⟩,[.root]⟩,
          ⟨.cached "X" "early",[.root]⟩,⟨.cached "Y" "late",[.root]⟩,⟨.leave .root,[.root]⟩] := by
  have hbare := wellFormed_bare "q" ""
  have h : annotatedPair.WellFormed := (hbare.edited _).1
  have hs : annotatedPair.Shelved := (shelved_bare "q" "").edited hbare _
  exact ⟨h,hs,(walk_toured h hs).1,by decide +kernel⟩

end Query

end GraphPattern
