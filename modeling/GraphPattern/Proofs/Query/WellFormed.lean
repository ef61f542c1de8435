import GraphPattern.Proofs.Query.Incidence
import GraphPattern.Proofs.Query.Nesting
import GraphPattern.Proofs.Query.Ownership
import GraphPattern.Proofs.Query.Slots
import Mathlib.Data.List.ReduceOption

/-!
# Well-formed queries

A query is well formed when owners and members, parents and subqueries, ends and incident edges
agree and names are unique. Edits work in several passes; a pass that changes nothing but
incidences keeps owners and names, so each of the four parts has its own short argument.
-/

/-!
## Naming

Every live item has names, no two items share one, and only composite vertices have several. Names
stand in increasing order and are never empty, so an item is known by its joined names alone.
-/

namespace GraphPattern

/-- Names stand in increasing order, there is at least one, none is without characters, and only
composite vertices have several. -/
structure Item.WellNamed (x : Item) : Prop where
  /-- There is a name. -/
  nonempty : x.names ≠ []
  /-- No name is without characters. -/
  proper : "" ∉ x.names
  /-- The names stand in increasing order. -/
  increasing : x.names.Pairwise (· < ·)
  /-- Only composite vertices have several names. -/
  single : x.isComposite = false → x.names.length = 1

theorem Item.WellNamed.of_same {x y : Item} (h : x.WellNamed) (hn : y.names = x.names)
    (hc : y.isComposite = x.isComposite) : y.WellNamed :=
  ⟨hn ▸ h.nonempty,hn ▸ h.proper,hn ▸ h.increasing,fun hy => hn ▸ h.single (hc ▸ hy)⟩

theorem intercalate_ne_empty {separator n : String} (ns : List String) (h : n ≠ "") :
    separator.intercalate (n :: ns) ≠ "" := by
  cases ns with
  | nil => rwa [String.intercalate_singleton]
  | cons m ns =>
    rw [String.intercalate_cons_cons]
    exact fun he => h (String.append_eq_empty_iff.mp (String.append_eq_empty_iff.mp he).1).1

theorem Item.WellNamed.joinedName_ne {x : Item} (h : x.WellNamed) : x.joinedName ≠ "" := by
  rw [Item.joinedName]
  cases hn : x.names with
  | nil => exact absurd hn h.nonempty
  | cons n ns =>
    exact intercalate_ne_empty ns fun he => h.proper (by rw [hn,he]; exact List.mem_cons_self)

theorem Item.WellNamed.names_eq {x : Item} (h : x.WellNamed) (hc : x.isComposite = false) :
    x.names = [x.joinedName] := by
  obtain ⟨n,hn⟩ := List.length_eq_one_iff.mp (h.single hc)
  rw [Item.joinedName,hn,String.intercalate_singleton]

namespace Query

/-- All items are well named and no two of them share a name. -/
structure Named (q : Query) : Prop where
  /-- Every live item is well named. -/
  named : ∀ {i x}, q.item? i = some x → x.WellNamed
  /-- Different live items share no name. -/
  disjoint : ∀ {i j x y n}, q.item? i = some x → q.item? j = some y →
    n ∈ x.names → n ∈ y.names → i = j

/-- No live item apart from the excepted one has one of the given names. -/
def Free (q : Query) (names : List String) (except : Option ItemId) : Prop :=
  ∀ i x, q.item? i = some x → some i ≠ except → ∀ n ∈ names, n ∉ x.names

/-- The check of names succeeds exactly when they are free. -/
theorem checkNames_eq_ok {q : Query} {names : List String} {except : Option ItemId} :
    q.checkNames names except = .ok () ↔ q.Free names except := by
  have hclash : (((q.items.indexed.filter fun e => some ⟨e.1⟩ ≠ except).findSome? fun e =>
      (clash? names e.2).map (·, e.2)) = none) ↔ q.Free names except := by
    simp only [List.findSome?_eq_none_iff,List.mem_filter,decide_eq_true_eq,Option.map_eq_none_iff,
      clash?,List.find?_eq_none,Item.hasName,Prod.forall,and_imp,Arena.mem_indexed]
    exact ⟨fun h i x hx he n hn => h i.index x hx he n hn,fun h i x hx he n hn => h ⟨i⟩ x hx he n hn⟩
  rw [← hclash,checkNames]
  split
  · rename_i heq
    rw [heq]
    exact ⟨nofun,nofun⟩
  · rename_i heq
    exact ⟨fun _ => heq,fun _ => rfl⟩

namespace Named

variable {q q' : Query}

/-- Only names and classes count, and items may be missing. -/
theorem of_sub (h : q.Named) (hq : ∀ i x, q'.item? i = some x → ∃ y, q.item? i = some y ∧
    x.names = y.names ∧ x.isComposite = y.isComposite) : q'.Named := by
  constructor
  · intro i x hx
    obtain ⟨y,hy,hn,hc⟩ := hq i x hx
    exact (h.named hy).of_same hn hc
  · intro i j x y n hx hy hnx hny
    obtain ⟨x',hx',hn,-⟩ := hq i x hx
    obtain ⟨y',hy',hm,-⟩ := hq j y hy
    exact h.disjoint hx' hy' (hn ▸ hnx) (hm ▸ hny)

/-- One item, new or changed, whose names are free. -/
theorem of_put (h : q.Named) {j : ItemId} {z : Item} (hz : z.WellNamed)
    (hf : q.Free z.names (some j))
    (hq : ∀ i x, q'.item? i = some x → if i = j then x.names = z.names ∧ x.isComposite = z.isComposite
      else ∃ y, q.item? i = some y ∧ x.names = y.names ∧ x.isComposite = y.isComposite) :
    q'.Named := by
  constructor
  · intro i x hx
    have hi := hq i x hx
    split at hi
    · exact hz.of_same hi.1 hi.2
    · obtain ⟨y,hy,hn,hc⟩ := hi
      exact (h.named hy).of_same hn hc
  · intro i k x y n hx hy hnx hny
    have hi := hq i x hx
    have hk := hq k y hy
    -- The item in question against itself, against another one, or two others.
    by_cases hij : i = j <;> by_cases hkj : k = j
    · rw [hij,hkj]
    · rw [if_pos hij] at hi
      rw [if_neg hkj] at hk
      obtain ⟨y',hy',hn,-⟩ := hk
      exact absurd (hn ▸ hny) (hf k y' hy' (fun he => hkj (Option.some.inj he)) n (hi.1 ▸ hnx))
    · rw [if_neg hij] at hi
      rw [if_pos hkj] at hk
      obtain ⟨x',hx',hn,-⟩ := hi
      exact absurd (hn ▸ hnx) (hf i x' hx' (fun he => hij (Option.some.inj he)) n (hk.1 ▸ hny))
    · rw [if_neg hij] at hi
      rw [if_neg hkj] at hk
      obtain ⟨x',hx',hn,-⟩ := hi
      obtain ⟨y',hy',hm,-⟩ := hk
      exact h.disjoint hx' hy' (hn ▸ hnx) (hm ▸ hny)

end Named

end Query

end GraphPattern

/-! ## The parts of well-formedness together -/

namespace GraphPattern.Query

open Step

/-- The redundant views of a query agree and names are unique. -/
structure WellFormed (q : Query) : Prop where
  /-- Owners and lists of members agree. -/
  owned : q.Owned
  /-- Parents and lists of subqueries agree. -/
  nested : q.Nested
  /-- Names are unique and well chosen. -/
  named : q.Named
  /-- Ends of edges and lists of incident edges agree. -/
  incident : q.Incident

/-- The second query has the items of the first one, changed in nothing but their incidence, and
the same containers. -/
structure Rewired (q q' : Query) : Prop where
  /-- The containers are the same. -/
  container? : ∀ c, q'.container? c = q.container? c
  /-- The same items are live, and they differ in their incidence alone. -/
  item? : ∀ j, Option.Rel Item.SameButIncidence (q'.item? j) (q.item? j)

namespace Rewired

variable {q q' q'' : Query}

theorem refl (q : Query) : q.Rewired q where
  container? _ := rfl
  item? j := by
    cases q.item? j with
    | none => exact .none
    | some x => exact .some (.refl x)

theorem forward (h : q.Rewired q') {j : ItemId} {x : Item} (hx : q.item? j = some x) :
    ∃ y, q'.item? j = some y ∧ y.SameButIncidence x := by
  have hj := h.item? j
  rw [hx] at hj
  cases hy : q'.item? j with
  | none => rw [hy] at hj; cases hj
  | some y =>
    rw [hy] at hj
    cases hj with
    | some hxy => exact ⟨y,rfl,hxy⟩

theorem backward (h : q.Rewired q') {j : ItemId} {y : Item} (hy : q'.item? j = some y) :
    ∃ x, q.item? j = some x ∧ y.SameButIncidence x := by
  have hj := h.item? j
  rw [hy] at hj
  cases hx : q.item? j with
  | none => rw [hx] at hj; cases hj
  | some x =>
    rw [hx] at hj
    cases hj with
    | some hxy => exact ⟨x,rfl,hxy⟩

theorem trans (h : q.Rewired q') (h' : q'.Rewired q'') : q.Rewired q'' where
  container? c := (h'.container? c).trans (h.container? c)
  item? j := by
    cases hx : q.item? j with
    | none =>
      cases hz : q''.item? j with
      | none => exact .none
      | some z =>
        obtain ⟨y,hy,-⟩ := h'.backward hz
        obtain ⟨x,hx',-⟩ := h.backward hy
        rw [hx] at hx'
        cases hx'
    | some x =>
      obtain ⟨y,hy,hxy⟩ := h.forward hx
      obtain ⟨z,hz,hyz⟩ := h'.forward hy
      rw [hz]
      exact .some (hyz.trans hxy)

theorem mapItem {f : Item → Item} (hf : ∀ x, (f x).SameButIncidence x) (q : Query) (i : ItemId) :
    q.Rewired (q.mapItem i f) where
  container? _ := rfl
  item? j := by
    rw [item?_mapItem]
    cases q.item? j with
    | none => split <;> exact .none
    | some x =>
      split
      · exact .some (hf x)
      · exact .some (.refl x)

theorem foldl {α : Type} {g : Query → α → Query} (hg : ∀ q a, Rewired q (g q a)) (as : List α)
    (q : Query) : q.Rewired (as.foldl g q) := by
  induction as generalizing q with
  | nil => exact .refl q
  | cons a as ih => exact (hg q a).trans (ih (g q a))

theorem isSome (h : q.Rewired q') (j : ItemId) : (q'.item? j).isSome = (q.item? j).isSome := by
  rw [Bool.eq_iff_iff,Option.isSome_iff_exists,Option.isSome_iff_exists]
  constructor
  · rintro ⟨y,hy⟩
    obtain ⟨x,hx,-⟩ := h.backward hy
    exact ⟨x,hx⟩
  · rintro ⟨x,hx⟩
    obtain ⟨y,hy,-⟩ := h.forward hx
    exact ⟨y,hy⟩

theorem owned (h : q.Rewired q') (ho : q.Owned) : q'.Owned := by
  refine ho.of_same (fun j => ?_) fun c => by rw [h.container?]
  have hj := h.item? j
  cases hj' : q.item? j with
  | none =>
    rw [hj'] at hj
    cases hy : q'.item? j with
    | none => rfl
    | some y => rw [hy] at hj; cases hj
  | some x =>
    obtain ⟨y,hy,hxy⟩ := h.forward hj'
    rw [hy,Option.map_some,Option.map_some,hxy.isVertex,hxy.container]

theorem nested (h : q.Rewired q') (hn : q.Nested) : q'.Nested :=
  hn.of_same fun c => by rw [h.container?]

theorem named (h : q.Rewired q') (hn : q.Named) : q'.Named :=
  hn.of_sub fun j y hy => by
    obtain ⟨x,hx,hxy⟩ := h.backward hy
    exact ⟨x,hx,hxy.names,hxy.isComposite⟩

/-- A query that is only rewired is well formed if its incidences agree. -/
theorem wellFormed (h : q.Rewired q') (hq : q.WellFormed) (hi : q'.Incident) : q'.WellFormed :=
  ⟨h.owned hq.owned,h.nested hq.nested,h.named hq.named,hi⟩

end Rewired

/-- A change of a container that touches neither its lists nor its place. -/
theorem WellFormed.mapContainer {q : Query} (h : q.WellFormed) {c : ContainerId}
    {f : Container → Container} (hf : ∀ C, q.container? c = some C →
      (f C).members = C.members ∧ (f C).parent? = C.parent? ∧ (f C).subqueries = C.subqueries) :
    (q.mapContainer c f).WellFormed where
  owned := h.owned.of_same (fun j => rfl) fun d => by
    rw [container?_mapContainer]
    split
    · rename_i hd
      cases hC : q.container? d with
      | none => rfl
      | some C => exact congrArg some (hf C (hd ▸ hC)).1
    · rfl
  nested := h.nested.of_same fun d => by
    rw [container?_mapContainer]
    split
    · rename_i hd
      cases hC : q.container? d with
      | none => rfl
      | some C => simp only [Option.map_some,(hf C (hd ▸ hC)).2]
    · rfl
  named := h.named.of_sub fun i x hx => ⟨x,hx,rfl,rfl⟩
  incident := h.incident.of_same fun j => rfl

/-- A container may give way to another one that lists the same in the same place. -/
theorem WellFormed.putContainer {q : Query} (h : q.WellFormed) {c : ContainerId} {C D : Container}
    (hC : q.container? c = some C)
    (hD : D.members = C.members ∧ D.parent? = C.parent? ∧ D.subqueries = C.subqueries) :
    (q.mapContainer c fun _ => D).WellFormed :=
  h.mapContainer fun E hE => by
    rw [hC] at hE
    cases hE
    exact hD

/-- A change of an item that touches neither its names nor its class, its incidence or its owner. -/
theorem WellFormed.mapItem {q : Query} (h : q.WellFormed) {i : ItemId} {f : Item → Item}
    (hf : ∀ x, q.item? i = some x →
      (f x).names = x.names ∧ (f x).body = x.body ∧ (f x).container = x.container) :
    (q.mapItem i f).WellFormed where
  owned := h.owned.of_same (fun j => by
    rw [item?_mapItem]
    split
    · rename_i hj
      cases hx : q.item? j with
      | none => rfl
      | some x =>
        obtain ⟨-,hb,hc⟩ := hf x (hj ▸ hx)
        simp only [Option.map_some,Item.isVertex,hb,hc]
    · rfl) fun c => rfl
  nested := h.nested.of_same fun c => rfl
  named := h.named.of_sub fun j y hy => by
    rw [item?_mapItem] at hy
    split at hy
    · rename_i hj
      obtain ⟨x,hx,rfl⟩ := Option.map_eq_some_iff.mp hy
      obtain ⟨hn,hb,-⟩ := hf x (hj ▸ hx)
      have hk : (f x).kind = x.kind := by rw [Item.kind,hb]; rfl
      exact ⟨x,hx,hn,by rw [Item.isComposite,Item.isComposite,hk]⟩
    · exact ⟨y,hy,rfl,rfl⟩
  incident := h.incident.of_same fun j => by
    rw [item?_mapItem]
    split
    · rename_i hj
      cases hx : q.item? j with
      | none => rfl
      | some x => simp only [Option.map_some,(hf x (hj ▸ hx)).2.1]
    · rfl

/-! ## Loops over items and containers -/

/-- Changing items one after another, where changing twice is changing once. -/
theorem item?_foldl_mapItem {f : Item → Item} (hf : ∀ x, f (f x) = f x) (is : List ItemId)
    (q : Query) (j : ItemId) : (is.foldl (fun q i => q.mapItem i f) q).item? j =
      (q.item? j).map fun x => if j ∈ is then f x else x := by
  induction is generalizing q with
  | nil => simp
  | cons i is ih =>
    rw [List.foldl_cons,ih,item?_mapItem]
    by_cases hj : j = i
    · cases q.item? j <;> simp [hj,hf]
    · simp only [hj,if_false,List.mem_cons,false_or]

/-- Changing containers one after another, where changing twice is changing once. -/
theorem container?_foldl_mapContainer {f : Container → Container} (hf : ∀ C, f (f C) = f C)
    (cs : List ContainerId) (q : Query) (d : ContainerId) :
    (cs.foldl (fun q c => q.mapContainer c f) q).container? d =
      (q.container? d).map fun C => if d ∈ cs then f C else C := by
  induction cs generalizing q with
  | nil => simp
  | cons c cs ih =>
    rw [List.foldl_cons,ih,container?_mapContainer]
    by_cases hd : d = c
    · cases q.container? d <;> simp [hd,hf]
    · simp only [hd,if_false,List.mem_cons,false_or]

theorem container?_foldl_mapItem {α : Type} {g : α → ItemId} {f : α → Item → Item} (as : List α)
    (q : Query) (d : ContainerId) :
    (as.foldl (fun q a => q.mapItem (g a) (f a)) q).container? d = q.container? d := by
  induction as generalizing q with
  | nil => rfl
  | cons a as ih => exact ih _

theorem item?_foldl_mapContainer {f : Container → Container} (cs : List ContainerId) (q : Query)
    (j : ItemId) : (cs.foldl (fun q c => q.mapContainer c f) q).item? j = q.item? j := by
  induction cs generalizing q with
  | nil => rfl
  | cons c cs ih => exact ih _

/-- Changing live items one after another succeeds. -/
theorem forM_modifyItem {f : Item → Item} {l : List ItemId} {q : Query}
    (h : ∀ i ∈ l, (q.item? i).isSome = true) :
    l.forM (fun i => modifyItem i f) q = .ok ⟨⟩ (l.foldl (fun q i => q.mapItem i f) q) := by
  refine (forM_apply (P:=fun p : Query => ∀ i ∈ l, (p.item? i).isSome = true)
    (fun i hi p hp => ⟨modifyItem_ok (hp i hi),fun j hj => ?_⟩) h).1
  rw [item?_mapItem]
  split
  · rw [Option.isSome_map]
    exact hp j hj
  · exact hp j hj

/-- Changing live containers one after another succeeds. -/
theorem forM_modifyContainer {f : Container → Container} {l : List ContainerId} {q : Query}
    (h : ∀ c ∈ l, (q.container? c).isSome = true) : l.forM (fun c => modifyContainer c f) q =
      .ok ⟨⟩ (l.foldl (fun q c => q.mapContainer c f) q) := by
  refine (forM_apply (P:=fun p : Query => ∀ c ∈ l, (p.container? c).isSome = true)
    (fun c hc p hp => ⟨modifyContainer_ok (hp c hc),fun d hd => ?_⟩) h).1
  rw [container?_mapContainer]
  split
  · rw [Option.isSome_map]
    exact hp d hd
  · exact hp d hd

/-! ## The vertices at the ends of an edge -/

/-- Do something to every vertex at the known ends of an edge. -/
def mapEndVertices (ends : EdgeEnds) (f : Item → Item) (q : Query) : Query :=
  [ends.source,ends.target].reduceOption.foldl (fun q v => q.mapItem v f) q

theorem mem_reduceOption_ends {ends : EdgeEnds} {v : ItemId} :
    v ∈ [ends.source,ends.target].reduceOption ↔ ends.Touches v := by
  simp only [List.reduceOption_mem_iff,List.mem_cons,List.not_mem_nil,or_false,EdgeEnds.Touches]
  exact or_congr eq_comm eq_comm

theorem item?_mapEndVertices {ends : EdgeEnds} {f : Item → Item} (hf : ∀ x, f (f x) = f x)
    (q : Query) (j : ItemId) : (mapEndVertices ends f q).item? j =
      (q.item? j).map fun x => if ends.Touches j then f x else x := by
  simp only [mapEndVertices,item?_foldl_mapItem hf,mem_reduceOption_ends]

theorem rewired_mapEndVertices (ends : EdgeEnds) {f : Item → Item}
    (hf : ∀ x, (f x).SameButIncidence x) (q : Query) : q.Rewired (mapEndVertices ends f q) :=
  Rewired.foldl (fun q v => Rewired.mapItem hf q v) _ q

/-! ## The edges of a vertex -/

/-- Move one edge from a vertex to another one, which notes it. -/
def moveEdge (old new : ItemId) (q : Query) (e : ItemId) : Query :=
  (q.mapItem e (Item.mapEnds fun ends => ends.redirect old new)).mapItem new (Item.attach e)

theorem rewired_moveEdge (old new : ItemId) (q : Query) (e : ItemId) :
    q.Rewired (moveEdge old new q e) :=
  (Rewired.mapItem (Item.sameButIncidence_mapEnds _) q e).trans
    (.mapItem (Item.sameButIncidence_attach e) _ new)

theorem item?_foldl_moveEdge {old new : ItemId} {es : List ItemId} (hes : es.Nodup)
    {j : ItemId} (hj : j ≠ new) (q : Query) : (es.foldl (moveEdge old new) q).item? j =
      (q.item? j).map fun x =>
        if j ∈ es then x.mapEnds fun ends => ends.redirect old new else x := by
  induction es generalizing q with
  | nil => simp
  | cons e es ih =>
    obtain ⟨he,hes⟩ := List.nodup_cons.mp hes
    rw [List.foldl_cons,ih hes]
    simp only [moveEdge,item?_mapItem,if_neg hj,List.mem_cons]
    by_cases hje : j = e
    · subst hje
      simp [he,Function.comp_def]
    · simp [hje]

theorem item?_foldl_moveEdge_new {old new : ItemId} {es : List ItemId} (hn : new ∉ es)
    (q : Query) : (es.foldl (moveEdge old new) q).item? new =
      (q.item? new).map fun x => es.foldl (fun x e => x.attach e) x := by
  induction es generalizing q with
  | nil => simp
  | cons e es ih =>
    have hne : new ≠ e := fun he => hn (he ▸ List.mem_cons_self)
    have hns : new ∉ es := fun hm => hn (List.mem_cons_of_mem _ hm)
    rw [List.foldl_cons,ih hns]
    simp [moveEdge,hne,Function.comp_def]

theorem edges?_foldl_attach (es : List ItemId) (x : Item) :
    (es.foldl (fun x e => x.attach e) x).edges? =
      x.edges?.map fun edges => es.foldl (fun l e => insertOrdered e l) edges := by
  induction es generalizing x with
  | nil => simp
  | cons e es ih =>
    rw [List.foldl_cons,ih,Item.edges?_attach]
    simp [Function.comp_def]

theorem mem_foldl_insertOrdered {es edges : List ItemId} {e : ItemId} :
    e ∈ es.foldl (fun l e => insertOrdered e l) edges ↔ e ∈ edges ∨ e ∈ es := by
  induction es generalizing edges with
  | nil => simp
  | cons f fs ih =>
    rw [List.foldl_cons,ih,mem_insertOrdered,List.mem_cons]
    tauto

theorem pairwise_foldl_insertOrdered {es edges : List ItemId} (h : edges.Pairwise (· < ·)) :
    (es.foldl (fun l e => insertOrdered e l) edges).Pairwise (· < ·) := by
  induction es generalizing edges with
  | nil => exact h
  | cons e es ih => exact ih (pairwise_insertOrdered h)

end GraphPattern.Query
