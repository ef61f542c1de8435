import GraphPattern.Proofs.Query.History
import GraphPattern.Query.Content
import Mathlib.Algebra.GroupWithZero.Nat

/-!
# Gauges

A gauge counts something in every item and in every container of a query. What it shows is a sum
over slots, so that a change of one slot changes one summand, and edges that move from one vertex to
another change nothing. A gauge that looks at nothing but what contents list can be read off the
content of a query.
-/

namespace GraphPattern

namespace Arena

variable {α : Type}

/-- The sum of a quantity over the values still held. -/
def total (w : α → Nat) (s : Arena α) : Nat := (s.live.map w).sum

/-- An empty slot counts nothing. -/
theorem total_eq (w : α → Nat) (s : Arena α) :
    s.total w = (s.slots.map fun o => o.elim 0 w).sum := by
  obtain ⟨slots⟩ := s
  simp only [total,live]
  induction slots with
  | nil => rfl
  | cons o slots ih =>
    cases o with
    | none => simpa using ih
    | some a => simpa using ih

theorem total_push (w : α → Nat) (s : Arena α) (a : α) :
    (s.push a).total w = s.total w + w a := by
  simp [total_eq,push]

theorem sum_set (w : Option α → Nat) {l : List (Option α)} {i : Nat} {o p : Option α}
    (h : l[i]? = some o) : ((l.set i p).map w).sum + w o = (l.map w).sum + w p := by
  induction l generalizing i with
  | nil => cases h
  | cons q l ih =>
    cases i with
    | zero =>
      cases h
      simp only [List.set_cons_zero,List.map_cons,List.sum_cons]
      omega
    | succ i =>
      have hl := ih (i:=i) h
      simp only [List.set_cons_succ,List.map_cons,List.sum_cons]
      omega

/-- The slot of a value that is held. -/
theorem slot_of_get? {s : Arena α} {i : Nat} {a : α} (h : s.get? i = some a) :
    s.slots[i]? = some (some a) := by
  simpa [get?,Option.join_eq_some_iff] using h

theorem total_erase (w : α → Nat) {s : Arena α} {i : Nat} {a : α} (h : s.get? i = some a) :
    (s.erase i).total w + w a = s.total w := by
  have hsum := sum_set (fun o => o.elim 0 w) (p:=none) (slot_of_get? h)
  simpa only [total_eq,erase,Option.elim_some,Option.elim_none,Nat.add_zero] using hsum

theorem total_modify (w : α → Nat) {s : Arena α} {i : Nat} {a : α} (f : α → α)
    (h : s.get? i = some a) : (s.modify i f).total w + w a = s.total w + w (f a) := by
  have hslot := slot_of_get? h
  have hset : s.slots.modify i (Option.map f) = s.slots.set i (some (f a)) := by
    rw [List.modify_eq_set_getElem?,hslot]
    rfl
  have hsum := sum_set (fun o => o.elim 0 w) (p:=some (f a)) hslot
  simpa only [total_eq,modify,hset,Option.elim_some] using hsum

/-- A change that leaves the quantity alone leaves the sum alone. -/
theorem total_modify_same (w : α → Nat) {s : Arena α} {i : Nat} {f : α → α}
    (h : ∀ a, s.get? i = some a → w (f a) = w a) : (s.modify i f).total w = s.total w := by
  cases ha : s.get? i with
  | some a =>
    have hsum := total_modify w f ha
    rw [h a ha] at hsum
    omega
  | none =>
    have hset : s.slots.modify i (Option.map f) = s.slots := by
      refine List.ext_getElem? fun j => ?_
      rw [List.getElem?_modify]
      split
      · rename_i hij
        subst hij
        cases hj : s.slots[i]? with
        | none => rfl
        | some o =>
          cases o with
          | none => rfl
          | some a => simp [get?,hj] at ha
      · simp
    simp only [total_eq,modify,hset]

theorem live_eq_map_indexed (s : Arena α) : s.live = s.indexed.map Prod.snd := by
  have from_ : ∀ (l : List (Option α)) (n : Nat), l.filterMap id =
      (l.zipIdx n).filterMap fun e => (e.1.map (e.2,·)).map Prod.snd := by
    intro l
    induction l with
    | nil => intro n; rfl
    | cons o l ih =>
      intro n
      cases o with
      | none => simpa using ih (n + 1)
      | some a => simpa using ih (n + 1)
  simp only [live,indexed,List.map_filterMap]
  exact from_ _ 0

/-- Every slot has a number of its own. -/
theorem nodup_indexed (s : Arena α) : (s.indexed.map Prod.fst).Nodup := by
  have from_ : ∀ (l : List (Option α)) (n : Nat),
      ((l.zipIdx n).filterMap fun e => (e.1.map (e.2,·)).map Prod.fst).Nodup ∧
      ∀ i ∈ (l.zipIdx n).filterMap fun e => (e.1.map (e.2,·)).map Prod.fst, n ≤ i := by
    intro l
    induction l with
    | nil => intro n; exact ⟨List.nodup_nil,nofun⟩
    | cons o l ih =>
      intro n
      obtain ⟨hd,hle⟩ := ih (n + 1)
      cases o with
      | none =>
        refine ⟨by simpa using hd,fun i hi => ?_⟩
        have := hle i (by simpa using hi)
        omega
      | some a =>
        simp only [List.zipIdx_cons,List.filterMap_cons,Option.map_some]
        refine ⟨List.nodup_cons.mpr ⟨fun hm => ?_,hd⟩,fun i hi => ?_⟩
        · have := hle n hm
          omega
        · rcases List.mem_cons.mp hi with rfl|hi
          · exact Nat.le_refl _
          · have := hle i hi
            omega
  simp only [indexed,List.map_filterMap]
  exact (from_ _ 0).1

end Arena

/-- What is counted of a query. Beside what is given here every container counts one, and one for
each of its constraints. -/
structure Gauge where
  /-- What an item counts, by what it is compared by and by its annotation. -/
  item : ItemIdentity → Option Annotation → Nat
  /-- What a container counts further, by its annotation. -/
  bounds : Option Annotation → Nat

namespace Gauge

/-- What an item counts. -/
def ofItem (g : Gauge) (x : Item) : Nat := g.item x.identity x.bounds

/-- What a container counts. -/
def ofContainer (g : Gauge) (C : Container) : Nat := 1 + C.constraints.length + g.bounds C.bounds

/-- The gauge does not look at annotations, which no content lists. -/
structure Visible (g : Gauge) : Prop where
  /-- It does not look at those of items. -/
  item : ∀ i b, g.item i b = g.item i none
  /-- It does not look at those of containers. -/
  bounds : ∀ b, g.bounds b = 0

end Gauge

theorem Item.SameButIncidence.identity {x y : Item} (h : x.SameButIncidence y) :
    x.identity = y.identity := by
  rw [Item.identity,Item.identity,h.kind,h.names,h.provenance]

theorem Item.kind_edge_iff {x : Item} : x.kind = .edge ↔ ∃ ends, x.ends? = some ends := by
  cases x with
  | mk names body =>
    cases body with
    | vertex composite => cases composite <;> simp [Item.kind,Item.ends?]
    | edge => simp [Item.kind,Item.ends?]

/-- A vertex that is not composite is a plain one. -/
theorem Item.kind_of_isVertex {x : Item} (hv : x.isVertex = true) (hk : x.kind ≠ .composite) :
    x.kind = .vertex := by
  cases hx : x.kind with
  | vertex => rfl
  | composite => exact absurd hx hk
  | edge =>
    rw [Item.not_isVertex_iff.mpr (Item.kind_edge_iff.mp hx)] at hv
    cases hv

theorem Gauge.sameButIncidence (g : Gauge) {x y : Item} (h : x.SameButIncidence y) :
    g.ofItem x = g.ofItem y := by
  rw [Gauge.ofItem,Gauge.ofItem,h.identity,h.bounds]

theorem insertSorted_perm {α : Type} (before : α → α → Bool) (x : α) (ys : List α) :
    (insertSorted before x ys).Perm (x :: ys) := by
  induction ys with
  | nil => exact .refl _
  | cons y ys ih =>
    rw [insertSorted]
    split
    · exact (ih.cons y).trans (.swap x y ys)
    · exact .refl _

theorem sortBy_perm {α : Type} (before : α → α → Bool) (xs : List α) :
    (sortBy before xs).Perm xs := by
  induction xs with
  | nil => exact .refl _
  | cons x xs ih => exact (insertSorted_perm before x _).trans (ih.cons x)

/-- What a gauge shows of a content. -/
def Content.gauged (g : Gauge) (c : Content) : Nat :=
  (c.items.map fun i => g.item i none).sum + (1 + c.subqueries) + c.constraints.length

namespace Query

variable {q : Query}

/-- What a gauge shows of a query. -/
def gauged (g : Gauge) (q : Query) : Nat :=
  q.items.total g.ofItem + q.containers.total g.ofContainer

section Changes

variable (g : Gauge)

/-! ## Changes of slots -/

theorem gauged_pushItem (q : Query) (x : Item) :
    (q.pushItem x).gauged g = q.gauged g + g.ofItem x := by
  simp only [gauged,pushItem,Arena.total_push]
  omega

theorem gauged_dropItem {i : ItemId} {x : Item} (hx : q.item? i = some x) :
    (q.dropItem i).gauged g + g.ofItem x = q.gauged g := by
  have h := Arena.total_erase g.ofItem hx
  simp only [gauged,dropItem]
  omega

theorem gauged_mapItem {i : ItemId} {x : Item} (f : Item → Item) (hx : q.item? i = some x) :
    (q.mapItem i f).gauged g + g.ofItem x = q.gauged g + g.ofItem (f x) := by
  have h := Arena.total_modify g.ofItem f hx
  simp only [gauged,mapItem]
  omega

theorem gauged_mapItem_same {i : ItemId} {f : Item → Item}
    (h : ∀ x, q.item? i = some x → g.ofItem (f x) = g.ofItem x) :
    (q.mapItem i f).gauged g = q.gauged g := by
  rw [gauged,gauged,mapItem,Arena.total_modify_same g.ofItem h]

theorem gauged_dropContainer {c : ContainerId} {C : Container} (hc : q.container? c = some C) :
    (q.dropContainer c).gauged g + g.ofContainer C = q.gauged g := by
  have h := Arena.total_erase g.ofContainer hc
  simp only [gauged,dropContainer]
  omega

theorem gauged_mapContainer {c : ContainerId} {C : Container} (f : Container → Container)
    (hc : q.container? c = some C) :
    (q.mapContainer c f).gauged g + g.ofContainer C = q.gauged g + g.ofContainer (f C) := by
  have h := Arena.total_modify g.ofContainer f hc
  simp only [gauged,mapContainer]
  omega

/-- A constraint that is found and goes takes one off. -/
theorem gauged_withoutFirst {c : ContainerId} {C : Container} {p : Constraint → Bool}
    {found : Constraint} {rest : List Constraint} (hc : q.container? c = some C)
    (hf : takeFirst p C.constraints = some (found,rest)) :
    (q.mapContainer c fun _ => { C with constraints := rest }).gauged g + 1 = q.gauged g := by
  have hw := gauged_mapContainer g (fun _ => { C with constraints := rest }) hc
  obtain ⟨before,after,hC,rfl,-⟩ := takeFirst_first hf
  simp only [Gauge.ofContainer,hC,List.length_append,List.length_cons,Container.bounds] at hw
  omega

theorem gauged_mapContainer_same {c : ContainerId} {f : Container → Container}
    (h : ∀ C, q.container? c = some C →
      (f C).constraints = C.constraints ∧ (f C).bounds = C.bounds) :
    (q.mapContainer c f).gauged g = q.gauged g := by
  rw [gauged,gauged,mapContainer,Arena.total_modify_same g.ofContainer fun C hC => by
    rw [Gauge.ofContainer,(h C hC).1,(h C hC).2,Gauge.ofContainer]]

theorem gauged_foldl {α : Type} {f : Query → α → Query}
    (hf : ∀ q a, (f q a).gauged g = q.gauged g) (as : List α) (q : Query) :
    (as.foldl f q).gauged g = q.gauged g := by
  induction as generalizing q with
  | nil => rfl
  | cons a as ih => exact (ih (f q a)).trans (hf q a)

theorem gauged_mapItem_incidence {f : Item → Item} (hf : ∀ x, (f x).SameButIncidence x)
    (q : Query) (i : ItemId) : (q.mapItem i f).gauged g = q.gauged g :=
  gauged_mapItem_same g fun x _ => g.sameButIncidence (hf x)

theorem gauged_mapEndVertices (ends : EdgeEnds) {f : Item → Item}
    (hf : ∀ x, (f x).SameButIncidence x) (q : Query) :
    (mapEndVertices ends f q).gauged g = q.gauged g :=
  gauged_foldl g (fun q v => gauged_mapItem_incidence g hf q v) _ q

theorem gauged_moveEdges (old new : ItemId) (es : List ItemId) (q : Query) :
    (es.foldl (moveEdge old new) q).gauged g = q.gauged g :=
  gauged_foldl g (fun q e =>
    (gauged_mapItem_incidence g (Item.sameButIncidence_attach e) _ new).trans
      (gauged_mapItem_incidence g (Item.sameButIncidence_mapEnds _) q e)) es q

/-! ## Removals and moves -/

theorem gauged_withoutEdge {e : ItemId} {x : Item} {ends : EdgeEnds} {c : ContainerId}
    (h : q.WellFormed) (hx : q.item? e = some x) (he : x.ends? = some ends) :
    (q.withoutEdge c e ends).gauged g + g.ofItem x = q.gauged g := by
  have hne := h.incident.not_touches_self hx he
  have hend : (mapEndVertices ends (Item.detach e) (q.mapContainer c fun C =>
      { C with edges := C.edges.filter (· ≠ e) })).item? e = some x := by
    rw [item?_mapEndVertices (fun x => Item.detach_detach e x),item?_mapContainer,hx,
      Option.map_some,if_neg hne]
  rw [withoutEdge,gauged_dropItem g hend,
    gauged_mapEndVertices g _ (Item.sameButIncidence_detach e)]
  exact gauged_mapContainer_same g fun _ _ => ⟨rfl,rfl⟩

theorem gauged_withoutVertex {v : ItemId} {x : Item} (c : ContainerId)
    (hx : q.item? v = some x) : (q.withoutVertex c v).gauged g + g.ofItem x = q.gauged g := by
  rw [withoutVertex,gauged_dropItem g (q:=q.mapContainer c _) (x:=x) hx]
  exact gauged_mapContainer_same g fun _ _ => ⟨rfl,rfl⟩

theorem gauged_withReplaced {i : ItemId} {x : Item} (edges : List ItemId) (c : ContainerId)
    (new : Item) (hx : q.item? i = some x) :
    (q.withReplaced c i edges new).gauged g + g.ofItem x = q.gauged g + g.ofItem new := by
  have hd := gauged_dropItem g hx
  have hp := gauged_pushItem g (q.dropItem i) { new with container := some c }
  have hnew : g.ofItem ({ new with container := some c } : Item) = g.ofItem new := rfl
  have hc : (((q.dropItem i).pushItem { new with container := some c }).mapContainer c fun C =>
      { C with vertices := replaceFirst i q.nextItem C.vertices }).gauged g =
      ((q.dropItem i).pushItem { new with container := some c }).gauged g :=
    gauged_mapContainer_same g fun _ _ => ⟨rfl,rfl⟩
  rw [withReplaced,gauged_moveEdges]
  omega

theorem gauged_withEmptied {e : ItemId} (old new : ItemId) {x : Item} {ends : EdgeEnds}
    (moved : List ItemId) (c : ContainerId) (h : q.WellFormed) (hx : q.item? e = some x)
    (he : x.ends? = some ends) :
    (q.withEmptied c e ends old new moved).gauged g + g.ofItem x = q.gauged g := by
  rw [withEmptied,gauged_foldl g fun p f =>
    gauged_mapItem_incidence g (Item.sameButIncidence_detach f) p old,gauged_moveEdges]
  exact gauged_withoutEdge g h hx he

theorem gauged_withAbsorbed (h : q.WellFormed) {e old new : ItemId} {x u w : Item}
    {ends : EdgeEnds} {edges : List ItemId} {c d : ContainerId}
    (ha : q.Absorbable e old new x u w ends edges c d) :
    (q.withAbsorbed c d e ends old new (edges.filter (· ≠ e))).gauged g +
      (g.ofItem x + g.ofItem u) = q.gauged g := by
  obtain ⟨-,z,hz,-,hsame⟩ := ha.withEmptied h
  have hv := gauged_withoutVertex g d hz
  have he := gauged_withEmptied g old new (edges.filter (· ≠ e)) c h ha.edge ha.ended
  rw [g.sameButIncidence hsame] at hv
  rw [withAbsorbed]
  omega

/-- Changing the vertex that absorbed another one trades what the edge and the two vertices measure
for what the changed vertex does. -/
theorem gauged_merged (h : q.WellFormed) {e old new : ItemId} {x u w : Item} {ends : EdgeEnds}
    {edges moved : List ItemId} {c d : ContainerId}
    (ha : q.Absorbable e old new x u w ends edges c d) (hm : edges.filter (· ≠ e) = moved)
    (f : Item → Item) : ∃ z, z.SameButIncidence w ∧
      ((q.withAbsorbed c d e ends old new moved).mapItem new f).gauged g +
        (g.ofItem x + g.ofItem u + g.ofItem w) = q.gauged g + g.ofItem (f z) := by
  subst hm
  obtain ⟨z,hz,hsame⟩ := (ha.leaves h).kept
  have hmap := gauged_mapItem g f hz
  have habsorbed := gauged_withAbsorbed g h ha
  have hzw := g.sameButIncidence hsame
  exact ⟨z,hsame,by omega⟩

/-- Flattening moves the constraints of a subquery and gives its container up. -/
theorem gauged_flattened (h : q.WellFormed) {s p : ContainerId} {S : Container}
    (hs : q.container? s = some S) (hsp : S.parent? = some p) :
    ((q.withLifted p s S).withoutSubquery p s).gauged g + (1 + g.bounds S.bounds) = q.gauged g := by
  obtain ⟨hne,hss,hps⟩ := h.nested.around hs hsp
  obtain ⟨P,hP,-⟩ := h.nested.listed hs hsp
  have hreparent : ∀ (C : Container), (C.reparent p).constraints = C.constraints ∧
      (C.reparent p).bounds = C.bounds := fun C => by
    cases C with
    | mk kind => cases kind <;> exact ⟨rfl,rfl⟩
  -- The subquery loses its constraints, and the container around it gets them.
  have hbare := gauged_mapContainer g (fun _ => Container.bare S.kind) hs
  let r := S.subqueries.foldl (fun q n => q.mapContainer n (Container.reparent p))
    ((S.vertices ++ S.edges).foldl
      (fun q i => q.mapItem i fun item => { item with container := some p })
      (q.mapContainer s fun _ => Container.bare S.kind))
  have hr : r.gauged g = (q.mapContainer s fun _ => Container.bare S.kind).gauged g :=
    (gauged_foldl g (fun q n => gauged_mapContainer_same g fun C _ => hreparent C) _ _).trans
      (gauged_foldl g (fun q i =>
        gauged_mapItem_same g (f:=fun item => { item with container := some p }) fun x _ => rfl) _ _)
  have hrp : r.container? p = some P := by
    rw [container?_foldl_mapContainer (reparent_reparent p),container?_foldl_mapItem,
      container?_mapContainer,if_neg hne,hP,Option.map_some,if_neg hps]
  have htake := gauged_mapContainer g (taking S) hrp
  have hinner : (q.withLifted p s S).container? s = some (Container.bare S.kind) := by
    rw [container?_withLifted s hne hss hps,hs,Option.map_some,if_pos rfl]
  have hinner' : ((q.withLifted p s S).mapContainer p fun C =>
      { C with subqueries := C.subqueries.filter (· ≠ s) }).container? s =
        some (Container.bare S.kind) := by
    rw [container?_mapContainer,if_neg (Ne.symm hne),hinner]
  have hdrop := gauged_dropContainer g hinner'
  have hsame : ((q.withLifted p s S).mapContainer p fun C =>
      { C with subqueries := C.subqueries.filter (· ≠ s) }).gauged g =
        (q.withLifted p s S).gauged g := gauged_mapContainer_same g fun _ _ => ⟨rfl,rfl⟩
  have hbw : g.ofContainer (Container.bare S.kind) = 1 + g.bounds S.bounds := rfl
  have hSw : g.ofContainer S = 1 + S.constraints.length + g.bounds S.bounds := rfl
  have hPw : g.ofContainer P = 1 + P.constraints.length + g.bounds P.bounds := rfl
  have htw : g.ofContainer (taking S P) =
      1 + (P.constraints.length + S.constraints.length) + g.bounds P.bounds := by
    rw [Gauge.ofContainer,taking,List.length_append]
    rfl
  have hdef : (q.withLifted p s S).gauged g = (r.mapContainer p (taking S)).gauged g := rfl
  rw [withoutSubquery]
  omega

end Changes

/-! ## Gauges, listings and contents -/

/-- The listing of a query holds the live containers, each once. -/
theorem containersIn_perm (h : q.Nested) :
    (q.containersIn .whole).Perm q.containers.live := by
  have hids : q.containerIds.Perm (q.containers.indexed.map fun e => ⟨e.1⟩) := by
    refine (List.perm_ext_iff_of_nodup h.nodup_containerIds ?_).mpr fun c => ?_
    · have hmap : (q.containers.indexed.map fun e => (⟨e.1⟩ : ContainerId)) =
          (q.containers.indexed.map Prod.fst).map ContainerId.mk := by
        rw [List.map_map]
        rfl
      rw [hmap]
      exact q.containers.nodup_indexed.map fun a b hab => ContainerId.mk.inj hab
    · rw [h.mem_containerIds,List.mem_map]
      constructor
      · intro hc
        obtain ⟨C,hC⟩ := Option.isSome_iff_exists.mp hc
        exact ⟨(c.index,C),Arena.mem_indexed.mpr hC,rfl⟩
      · rintro ⟨⟨i,C⟩,hm,rfl⟩
        have hC : q.container? ⟨i⟩ = some C := Arena.mem_indexed.mp hm
        rw [hC]
        rfl
  rw [containersIn,containerIdsIn,Arena.live_eq_map_indexed]
  refine (hids.filterMap q.container?).trans (List.Perm.of_eq ?_)
  rw [List.filterMap_map]
  refine List.filterMap_eq_map_iff_forall_eq_some.mpr ?_
  rintro ⟨i,C⟩ hm
  exact Arena.mem_indexed.mp hm

/-- What the containers count, by the listing. -/
theorem total_containers (g : Gauge) (h : q.Nested) : q.containers.total g.ofContainer =
    (q.subqueries .whole).length + 1 + (q.constraints .whole).length +
      ((q.containersIn .whole).map fun C => g.bounds C.bounds).sum := by
  have hperm := containersIn_perm h
  have hcount : q.containerIds.length = (q.containersIn .whole).length := by
    rw [containersIn,containerIdsIn]
    refine (List.filterMap_length_eq_length.mpr fun c hc => ?_).symm
    exact h.mem_containerIds.mp hc
  have hroot : 0<q.containerIds.length := by
    obtain ⟨R,hR,-⟩ := h.root
    exact List.length_pos_of_mem (h.mem_containerIds.mpr (by rw [hR]; rfl))
  have hsum : ∀ l : List Container, (l.map g.ofContainer).sum =
      l.length + (l.flatMap Container.constraints).length +
        (l.map fun C => g.bounds C.bounds).sum := by
    intro l
    induction l with
    | nil => rfl
    | cons C l ih =>
      simp only [List.flatMap_cons,List.length_append,List.length_cons,List.map_cons,
        List.sum_cons,Gauge.ofContainer] at ih ⊢
      omega
  have htotal : q.containers.total g.ofContainer =
      ((q.containersIn .whole).map g.ofContainer).sum := ((hperm.map _).sum_nat).symm
  rw [htotal,hsum,constraints,← hcount,subqueries,List.length_drop]
  omega

/-- The listings of the containers, vertices or edges, hold each live item of the kind once. -/
theorem members_perm (h : q.WellFormed) (b : Bool) :
    ((q.containersIn .whole).flatMap fun C => C.members b).Perm
      ((q.items.indexed.filter fun e => e.2.isVertex = b).map fun e => ⟨e.1⟩) := by
  have hlist : ((q.containersIn .whole).flatMap fun C => C.members b) =
      q.containerIds.flatMap fun c => (q.container? c).elim [] fun C => C.members b := by
    rw [containersIn,containerIdsIn,List.filterMap_eq_flatMap_toList,List.flatMap_assoc]
    refine List.flatMap_congr fun c _ => ?_
    cases q.container? c with
    | none => rfl
    | some C => exact List.append_nil _
  rw [hlist]
  refine (List.perm_ext_iff_of_nodup ?_ ?_).mpr fun i => ?_
  · refine List.nodup_flatMap.mpr ⟨fun c _ => ?_,?_⟩
    · cases hc : q.container? c with
      | none => exact List.nodup_nil
      | some C => exact h.owned.nodup b hc
    · refine h.nested.nodup_containerIds.imp fun {c d} hne => ?_
      -- An item is listed by its owner alone.
      change List.Disjoint ((q.container? c).elim [] fun C => C.members b)
        ((q.container? d).elim [] fun C => C.members b)
      rw [List.disjoint_left]
      intro i hi hj
      cases hc : q.container? c with
      | none => rw [hc] at hi; cases hi
      | some C =>
        cases hd : q.container? d with
        | none => rw [hd] at hj; cases hj
        | some D =>
          rw [hc] at hi
          rw [hd] at hj
          exact hne (h.owned.mem_unique hc hi hd hj).1
  · have hmap : (((q.items.indexed.filter fun e => e.2.isVertex = b).map fun e =>
        (⟨e.1⟩ : ItemId))) =
        ((q.items.indexed.filter fun e => e.2.isVertex = b).map Prod.fst).map ItemId.mk := by
      rw [List.map_map]
      rfl
    rw [hmap]
    exact (q.items.nodup_indexed.sublist (List.filter_sublist.map _)).map
      fun a b hab => ItemId.mk.inj hab
  · rw [List.mem_flatMap,List.mem_map]
    constructor
    · rintro ⟨c,-,hi⟩
      cases hc : q.container? c with
      | none => rw [hc] at hi; cases hi
      | some C =>
        rw [hc] at hi
        obtain ⟨x,hx,hb,-⟩ := h.owned.member hc hi
        exact ⟨(i.index,x),List.mem_filter.mpr ⟨Arena.mem_indexed.mpr hx,by simpa using hb⟩,rfl⟩
    · rintro ⟨⟨k,x⟩,hm,rfl⟩
      obtain ⟨hm,hb⟩ := List.mem_filter.mp hm
      have hx : q.item? ⟨k⟩ = some x := Arena.mem_indexed.mp hm
      obtain ⟨c,C,-,hC,hi⟩ := h.owned.owner hx
      rw [of_decide_eq_true hb] at hi
      exact ⟨c,h.nested.mem_containerIds.mpr (by rw [hC]; rfl),by rw [hC]; exact hi⟩

/-- The listings of the whole query hold the live items, vertices apart from edges. -/
theorem WellFormed.mem_listing (h : q.WellFormed) {b : Bool} {i : ItemId} :
    i ∈ ((q.containersIn .whole).flatMap fun C => C.members b) ↔
      ∃ x, q.item? i = some x ∧ x.isVertex = b := by
  rw [(members_perm h b).mem_iff,List.mem_map]
  constructor
  · rintro ⟨⟨k,x⟩,hm,rfl⟩
    obtain ⟨hm,hb⟩ := List.mem_filter.mp hm
    exact ⟨x,Arena.mem_indexed.mp hm,of_decide_eq_true hb⟩
  · rintro ⟨x,hx,hb⟩
    exact ⟨(i.index,x),List.mem_filter.mpr ⟨Arena.mem_indexed.mpr hx,decide_eq_true hb⟩,rfl⟩

theorem WellFormed.mem_vertices (h : q.WellFormed) {i : ItemId} :
    i ∈ q.vertices .whole ↔ ∃ x, q.item? i = some x ∧ x.isVertex = true :=
  h.mem_listing (b:=true)

theorem WellFormed.mem_edges (h : q.WellFormed) {i : ItemId} :
    i ∈ q.edges .whole ↔ ∃ x, q.item? i = some x ∧ x.isVertex = false :=
  h.mem_listing (b:=false)

/-- The listings of a query hold each vertex once, and each edge. -/
theorem WellFormed.nodup_listing (h : q.WellFormed) (b : Bool) :
    ((q.containersIn .whole).flatMap fun C => C.members b).Nodup := by
  refine (members_perm h b).nodup_iff.mpr ?_
  refine List.Nodup.of_map ItemId.index ?_
  rw [List.map_map]
  exact (Arena.nodup_indexed q.items).sublist ((List.filter_sublist).map _)

/-- The vertices of a query, each once. -/
theorem WellFormed.nodup_vertices (h : q.WellFormed) : (q.vertices .whole).Nodup :=
  h.nodup_listing true

/-- What a gauge shows of the item of a number. -/
def gaugedAt (g : Gauge) (q : Query) (i : ItemId) : Nat := (q.item? i).elim 0 g.ofItem

/-- What the items count, by the listing. -/
theorem total_items (g : Gauge) (h : q.WellFormed) : q.items.total g.ofItem =
    ((q.vertices .whole).map (q.gaugedAt g)).sum + ((q.edges .whole).map (q.gaugedAt g)).sum := by
  have hlist : ∀ b : Bool, (((q.containersIn .whole).flatMap fun C => C.members b).map
      (q.gaugedAt g)).sum =
      ((q.items.indexed.filter fun e => e.2.isVertex = b).map fun e => g.ofItem e.2).sum := by
    intro b
    rw [((members_perm h b).map _).sum_nat,List.map_map]
    refine congrArg List.sum (List.map_congr_left fun e he => ?_)
    have hx : q.item? ⟨e.1⟩ = some e.2 := Arena.mem_indexed.mp (List.mem_filter.mp he).1
    rw [Function.comp_apply,gaugedAt,hx]
    rfl
  have hsplit : ∀ l : List (Nat × Item), (l.map fun e => g.ofItem e.2).sum =
      ((l.filter fun e => e.2.isVertex = true).map fun e => g.ofItem e.2).sum +
        ((l.filter fun e => e.2.isVertex = false).map fun e => g.ofItem e.2).sum := by
    intro l
    induction l with
    | nil => rfl
    | cons e l ih => cases hv : e.2.isVertex <;> simp [hv,ih] <;> omega
  have hv : ((q.vertices .whole).map (q.gaugedAt g)).sum = _ := hlist true
  have he : ((q.edges .whole).map (q.gaugedAt g)).sum = _ := hlist false
  rw [hv,he,← hsplit,Arena.total,Arena.live_eq_map_indexed,List.map_map]
  rfl

/-- What a gauge shows, by the listings. -/
theorem gauged_eq (g : Gauge) (h : q.WellFormed) : q.gauged g =
    ((q.vertices .whole).map (q.gaugedAt g)).sum + ((q.edges .whole).map (q.gaugedAt g)).sum +
      ((q.subqueries .whole).length + 1 + (q.constraints .whole).length +
        ((q.containersIn .whole).map fun C => g.bounds C.bounds).sum) := by
  rw [gauged,total_items g h,total_containers g h.nested]

theorem sortedItems_perm (q : Query) : q.sortedItems.Perm q.items.live := by
  refine ((sortBy_perm _ _).map Prod.snd).trans (List.Perm.of_eq ?_)
  rw [List.map_map]
  exact List.map_id _

/-- What a gauge shows of a query can be read off the content, if it can be seen there. -/
theorem gauged_content (h : q.Nested) {g : Gauge} (hg : g.Visible) :
    q.content.gauged g = q.gauged g := by
  have hitems : ((q.sortedItems.map Item.identity).map fun i => g.item i none).sum =
      q.items.total g.ofItem := by
    rw [List.map_map]
    refine ((q.sortedItems_perm.map _).sum_nat).trans ?_
    exact congrArg List.sum (List.map_congr_left fun x _ => (hg.item x.identity x.bounds).symm)
  have htexts : (sortBy (· < ·) ((q.constraints .whole).map Constraint.text)).length =
      (q.constraints .whole).length := by
    rw [(sortBy_perm _ _).length_eq,List.length_map]
  have hcontainers := total_containers g h
  have hzero : ((q.containersIn .whole).map fun C => g.bounds C.bounds).sum = 0 := by
    simp [hg.bounds]
  simp only [content,Content.gauged,htexts,hitems,gauged]
  omega

end Query

end GraphPattern
