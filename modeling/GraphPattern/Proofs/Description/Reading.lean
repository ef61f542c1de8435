import GraphPattern.Proofs.Description.Noted
import GraphPattern.Proofs.Store.Tables

/-!
# Reading a query back

A query shows what it was built from: an item shows its entry, a container the entries of its
members, and the tree of containers the nesting of the subqueries. Each step of building amends the
entries of one container and leaves those of all others as they are.
-/

namespace GraphPattern

open Step

/-! ## Entries of items and constraints -/

/-- The name of an item that has no other one. -/
def Item.onlyName? (x : Item) : Option String :=
  match x.names with
  | [n] => some n
  | _ => none

/-- The entry that describes a plain vertex. -/
def Item.describeVertex? (x : Item) : Option VertexEntry :=
  if x.kind = .vertex then x.onlyName?.map fun n => ⟨n, x.condition, x.bounds⟩ else none

/-- The entry that describes an edge, with the vertex names that are written for its ends. -/
def Item.describeEdge? (x : Item) : Option EdgeEntry := do
  let ends ← x.ends?
  let name ← x.onlyName?
  return ⟨name, ends.sourceName, ends.targetName, ends.directed, x.condition, x.bounds⟩

/-- The entry that describes a constraint. -/
def Constraint.entry (k : Constraint) : ConstraintEntry :=
  ⟨k.operator, k.left, k.right, k.annotatedItem, k.bounds⟩

/-- The entry as a query keeps it: an annotated item and bounds together, or neither. -/
def ConstraintEntry.settled (c : ConstraintEntry) : ConstraintEntry :=
  match c.annotatedItem, c.bounds with
  | some _, some _ => c
  | _, _ => { c with annotatedItem := none, bounds := none }

/-- A constraint is kept as it is described exactly if its annotated item and its bounds are given
together. -/
theorem ConstraintEntry.settled_eq_iff {c : ConstraintEntry} :
    c.settled = c ↔ c.annotatedItem.isSome = c.bounds.isSome := by
  obtain ⟨operator,left,right,item,bounds⟩ := c
  cases item <;> cases bounds <;> simp [settled]

theorem Item.SameButIncidence.describeVertex? {x y : Item} (h : x.SameButIncidence y) :
    x.describeVertex? = y.describeVertex? := by
  rw [Item.describeVertex?,Item.describeVertex?,Item.onlyName?,Item.onlyName?,h.kind,h.names,h.condition,
    h.bounds]

theorem Item.SameButIncidence.describeEdge? {x y : Item} (h : x.SameButIncidence y)
    (he : x.ends? = y.ends?) : x.describeEdge? = y.describeEdge? := by
  rw [Item.describeEdge?,Item.describeEdge?,Item.onlyName?,Item.onlyName?,he,h.names,h.condition,h.bounds]

/-! ## What is checked stays as it is -/

theorem Annotation.checked_ok {a b : Annotation} (h : a.checked = .ok b) : b = a := by
  unfold checked ofBounds at h
  split at h
  · split at h
    · cases h
    · exact (Except.ok.inj h).symm
  · exact (Except.ok.inj h).symm

mutual

theorem Condition.checked_ok {c d : Condition} (h : c.checked = .ok d) : d = c := by
  cases c with
  | all parts =>
    rw [checked] at h
    obtain ⟨ps,hps,h⟩ := except_bind_eq_ok.mp h
    rw [← Except.ok.inj h,checkedAll_ok hps]
  | any parts =>
    rw [checked] at h
    obtain ⟨ps,hps,h⟩ := except_bind_eq_ok.mp h
    rw [← Except.ok.inj h,checkedAll_ok hps]
  | negation part =>
    rw [checked] at h
    obtain ⟨p,hp,h⟩ := except_bind_eq_ok.mp h
    rw [← Except.ok.inj h,checked_ok hp]
  | test t =>
    rw [checked,ofTest] at h
    split at h
    · cases h
    · split at h
      · cases h
      · exact (Except.ok.inj h).symm

theorem Condition.checkedAll_ok {cs ds : List Condition} (h : checkedAll cs = .ok ds) :
    ds = cs := by
  cases cs with
  | nil =>
    rw [checkedAll] at h
    exact (Except.ok.inj h).symm
  | cons c cs =>
    rw [checkedAll] at h
    obtain ⟨d,hd,h⟩ := except_bind_eq_ok.mp h
    obtain ⟨ds,hds,h⟩ := except_bind_eq_ok.mp h
    rw [← Except.ok.inj h,checked_ok hd,checkedAll_ok hds]

end

/-- A check of what may be missing returns what is there, if the check itself does. -/
theorem eq_of_mapM_checked {α : Type} {f : α → Except Error α} (hf : ∀ a b, f a = .ok b → b = a)
    {o p : Option α} (h : o.mapM f = .ok p) : p = o := by
  cases o with
  | none => exact (Except.ok.inj h).symm
  | some a =>
    cases ha : f a with
    | error e =>
      simp [ha] at h
    | ok b =>
      simp [ha] at h
      rw [← h,hf a b ha]

theorem Item.checkedWith_eq {x y : Item} {condition : Option Condition} {bounds : Option Annotation}
    (h : x.checkedWith condition bounds = .ok y) :
    y = { x with condition := condition, bounds := bounds } := by
  rw [checkedWith] at h
  obtain ⟨c,hc,h⟩ := except_bind_eq_ok.mp h
  obtain ⟨b,hb,h⟩ := except_bind_eq_ok.mp h
  rw [← Except.ok.inj h,eq_of_mapM_checked (fun _ _ => Condition.checked_ok) hc,
    eq_of_mapM_checked (fun _ _ => Annotation.checked_ok) hb]

/-- The vertex of an entry shows the entry. -/
theorem VertexEntry.describeVertex?_item {v : VertexEntry} {x : Item} (h : v.item = .ok x) :
    x.describeVertex? = some v := by
  rw [item] at h
  obtain ⟨y,hy,h⟩ := except_bind_eq_ok.mp h
  rw [Item.newVertex] at hy
  obtain ⟨-,-,hy⟩ := except_bind_eq_ok.mp hy
  rw [Item.checkedWith_eq h,← Except.ok.inj hy]
  rfl

/-- The edge of an entry shows the entry. -/
theorem EdgeEntry.describeEdge?_item {e : EdgeEntry} {x : Item} (h : e.item = .ok x) :
    x.describeEdge? = some e := by
  rw [item] at h
  obtain ⟨y,hy,h⟩ := except_bind_eq_ok.mp h
  rw [Item.newEdge] at hy
  obtain ⟨-,-,hy⟩ := except_bind_eq_ok.mp hy
  split at hy
  · cases hy
  · rw [Item.checkedWith_eq h,← Except.ok.inj hy]
    rfl

/-- The constraint of an entry shows the entry as it is kept. -/
theorem ConstraintEntry.entry_constraint {c : ConstraintEntry} {k : Constraint}
    (h : c.constraint = .ok k) : k.entry = c.settled := by
  obtain ⟨operator,left,right,item,bounds⟩ := c
  rw [constraint] at h
  obtain ⟨r,hr,h⟩ := except_bind_eq_ok.mp h
  rw [Constraint.ofOperands] at hr
  split at hr
  · cases hr
  split at hr
  · cases hr
  split at hr
  · cases hr
  cases hr
  cases item with
  | none => cases h; rfl
  | some i =>
    cases bounds with
    | none => cases h; rfl
    | some b =>
      obtain ⟨a,ha,h⟩ := except_bind_eq_ok.mp h
      rw [Constraint.annotate] at h
      split at h
      · rw [← Except.ok.inj h, Annotation.checked_ok ha]
        rfl
      · cases h

theorem DerivedLink.ofNames_ok {source target attr value : String} {l : DerivedLink}
    (h : ofNames source target attr value = .ok l) : l = ⟨source,target,attr,value⟩ := by
  rw [ofNames] at h
  split at h
  · cases h
  · exact (Except.ok.inj h).symm

/-! ## Entries of containers -/

namespace Query

/-- The entry that a live plain vertex shows. -/
def describeVertex? (q : Query) (i : ItemId) : Option VertexEntry :=
  (q.item? i).bind Item.describeVertex?

/-- The entry that a live edge shows. -/
def describeEdge? (q : Query) (i : ItemId) : Option EdgeEntry := (q.item? i).bind Item.describeEdge?

/-- The entries of what a container lists. -/
def membersOf? (q : Query) (C : Container) : Option Members := do
  let vertices ← C.vertices.mapM q.describeVertex?
  let edges ← C.edges.mapM q.describeEdge?
  return ⟨vertices, edges, C.constraints.map Constraint.entry, C.links,
    C.cached.entries.map fun e => ⟨e.1, e.2⟩⟩

/-- The entries of the members of a live container. -/
def members? (q : Query) (c : ContainerId) : Option Members := (q.container? c).bind q.membersOf?

/-- The annotation of a live container and the subqueries directly inside. -/
def frame? (q : Query) (c : ContainerId) : Option (Option Annotation × List ContainerId) :=
  (q.container? c).map fun C => (C.bounds, C.subqueries)

/-- The entry of a subquery, followed down to a given depth. -/
def describeSubquery? (q : Query) : Nat → ContainerId → Option SubqueryEntry
  | 0, _ => none
  | depth + 1, c => do
    let frame ← q.frame? c
    let members ← q.members? c
    let nested ← frame.2.mapM (q.describeSubquery? depth)
    return .mk frame.1 members nested

/-- The description that a query shows. No container lies deeper than there are containers. -/
def describe? (q : Query) : Option Description := do
  let frame ← q.frame? .root
  let members ← q.members? .root
  let subqueries ← frame.2.mapM (q.describeSubquery? q.containers.next)
  return ⟨q.name, q.description, members, subqueries⟩

/-- Elements of a list are worked through exactly if each of them is. -/
theorem mapM_eq_some_iff {α β : Type} {f : α → Option β} {as : List α} {bs : List β} :
    as.mapM f = some bs ↔ List.Forall₂ (fun a b => f a = some b) as bs := by
  induction as generalizing bs with
  | nil => simp
  | cons a as ih =>
    rw [List.mapM_cons,List.forall₂_cons_left_iff]
    simp only [Option.bind_eq_bind,Option.bind_eq_some_iff,Option.pure_def,Option.some.injEq,ih]
    constructor
    · rintro ⟨b,hb,cs,hcs,rfl⟩
      exact ⟨b,cs,hb,hcs,rfl⟩
    · rintro ⟨b,cs,hb,hcs,rfl⟩
      exact ⟨b,hb,cs,hcs,rfl⟩

theorem mapM_congr {α β : Type} {f g : α → Option β} {as : List α} (h : ∀ a ∈ as, f a = g a) :
    as.mapM f = as.mapM g := by
  induction as with
  | nil => rfl
  | cons a as ih =>
    rw [List.mapM_cons,List.mapM_cons,h a List.mem_cons_self,
      ih fun b hb => h b (List.mem_cons_of_mem _ hb)]

variable {q p q' q'' : Query} {c d : ContainerId} {C : Container} {i : ItemId} {m : Members}
variable {R S : Members → Members → Prop}

theorem membersOf?_eq_some : q.membersOf? C = some m ↔
    List.Forall₂ (fun i e => q.describeVertex? i = some e) C.vertices m.vertices ∧
      List.Forall₂ (fun i e => q.describeEdge? i = some e) C.edges m.edges ∧
      C.constraints.map Constraint.entry = m.constraints ∧ C.links = m.links ∧
      (C.cached.entries.map fun e => (⟨e.1,e.2⟩ : CachedEntry)) = m.cached := by
  obtain ⟨vertices,edges,constraints,links,cached⟩ := m
  simp only [membersOf?,Option.bind_eq_bind,Option.bind_eq_some_iff,Option.pure_def,
    Option.some.injEq,Members.mk.injEq,mapM_eq_some_iff]
  constructor
  · rintro ⟨vs,hvs,es,hes,rfl,rfl,h⟩
    exact ⟨hvs,hes,h⟩
  · rintro ⟨hvs,hes,h⟩
    exact ⟨_,hvs,_,hes,rfl,rfl,h⟩

theorem members?_eq_some : q.members? c = some m ↔
    ∃ C, q.container? c = some C ∧ q.membersOf? C = some m :=
  Option.bind_eq_some_iff

theorem frame?_eq_none : q.frame? c = none ↔ q.container? c = none := Option.map_eq_none_iff

/-! ## Amending one container -/

/-- The live items of the first query show the same entries in the second one. -/
def Retains (q q' : Query) : Prop := ∀ i x, q.item? i = some x →
  q'.describeVertex? i = q.describeVertex? i ∧ q'.describeEdge? i = q.describeEdge? i

/-- The second query shows what the first one shows, but for the entries of one container, which have
changed in a way that a relation allows. -/
structure Amends (c : ContainerId) (R : Members → Members → Prop) (q q' : Query) : Prop where
  /-- The name is the same. -/
  name : q'.name = q.name
  /-- The description is the same. -/
  description : q'.description = q.description
  /-- The containers lie as they lay. -/
  frame : ∀ d, q'.frame? d = q.frame? d
  /-- Other containers show the same entries. -/
  other : ∀ d, d ≠ c → q'.members? d = q.members? d
  /-- The entries of the container have changed. -/
  own : ∀ m, q.members? c = some m → ∃ m', q'.members? c = some m' ∧ R m m'

theorem Amends.refl (hR : ∀ m, R m m) : Amends c R q q :=
  ⟨rfl,rfl,fun _ => rfl,fun _ _ => rfl,fun m hm => ⟨m,hm,hR m⟩⟩

theorem Amends.trans {T : Members → Members → Prop} (h : Amends c R q q') (h' : Amends c S q' q'')
    (hT : ∀ m m' m'', R m m' → S m' m'' → T m m'') : Amends c T q q'' where
  name := h'.name.trans h.name
  description := h'.description.trans h.description
  frame d := (h'.frame d).trans (h.frame d)
  other d hd := (h'.other d hd).trans (h.other d hd)
  own m hm := by
    obtain ⟨m',hm',hR⟩ := h.own m hm
    obtain ⟨m'',hm'',hS⟩ := h'.own m' hm'
    exact ⟨m'',hm'',hT m m' m'' hR hS⟩

/-- A loop amends a container step by step. -/
theorem amends_forM {α : Type} {I : Query → Prop} {x : α → QueryEdit Unit}
    {R : List α → Members → Members → Prop} (hnil : ∀ m, R [] m m)
    (hcons : ∀ a as m m' m'', R [a] m m' → R as m' m'' → R (a :: as) m m'') {as : List α}
    (hx : ∀ a ∈ as, ∀ q u q', I q → x a q = .ok u q' → Amends c (R [a]) q q' ∧ I q') {u : PUnit}
    (hq : I q) (h : as.forM x q = .ok u q') : Amends c (R as) q q' ∧ I q' := by
  induction as generalizing q with
  | nil =>
    cases h
    exact ⟨.refl hnil,hq⟩
  | cons a as ih =>
    obtain ⟨_,q₁,h₁,h⟩ := bind_eq_ok.mp h
    obtain ⟨ha,hq₁⟩ := hx a List.mem_cons_self q _ q₁ hq h₁
    obtain ⟨has,hq'⟩ := ih (fun b hb => hx b (List.mem_cons_of_mem _ hb)) hq₁ h
    exact ⟨ha.trans has (hcons a as),hq'⟩

theorem membersOf?_of_retains (h : q.WellFormed) (hr : q.Retains q') (hC : q.container? c = some C) :
    q'.membersOf? C = q.membersOf? C := by
  have hv : ∀ i ∈ C.vertices, q'.describeVertex? i = q.describeVertex? i := fun i hi => by
    obtain ⟨x,hx,-⟩ := h.owned.member (b:=true) hC hi
    exact (hr i x hx).1
  have he : ∀ i ∈ C.edges, q'.describeEdge? i = q.describeEdge? i := fun i hi => by
    obtain ⟨x,hx,-⟩ := h.owned.member (b:=false) hC hi
    exact (hr i x hx).2
  rw [membersOf?,membersOf?,mapM_congr hv,mapM_congr he]

theorem frame?_mapContainer {f : Container → Container}
    (hf : ∀ C, (f C).bounds = C.bounds ∧ (f C).subqueries = C.subqueries) (q : Query) :
    (q.mapContainer c f).frame? d = q.frame? d := by
  rw [frame?,frame?,container?_mapContainer]
  split
  · cases q.container? d with
    | none => rfl
    | some C => simp only [Option.map_some,hf C]
  · rfl

/-- Items may come, as long as those that are there show the same, and then one container changes
what it lists. -/
theorem amends_mapContainer (h : q.WellFormed) (hr : q.Retains p) (hn : p.name = q.name)
    (ht : p.description = q.description) (hp : ∀ d, p.container? d = q.container? d)
    {f : Container → Container}
    (hf : ∀ C, (f C).bounds = C.bounds ∧ (f C).subqueries = C.subqueries)
    (hR : ∀ C m, q.container? c = some C → p.membersOf? C = some m →
      ∃ m', p.membersOf? (f C) = some m' ∧ R m m') : Amends c R q (p.mapContainer c f) where
  name := hn
  description := ht
  frame d := by rw [frame?_mapContainer hf,frame?,frame?,hp]
  other d hd := by
    have hsame : ∀ C, q.container? d = some C → p.membersOf? C = q.membersOf? C :=
      fun C hC => membersOf?_of_retains h hr hC
    rw [members?,members?,container?_mapContainer,if_neg hd,hp]
    cases hC : q.container? d with
    | none => rfl
    | some C => exact hsame C hC
  own m hm := by
    obtain ⟨C,hC,hm⟩ := members?_eq_some.mp hm
    rw [← membersOf?_of_retains h hr hC] at hm
    obtain ⟨m',hm',hRm⟩ := hR C m hC hm
    refine ⟨m',members?_eq_some.mpr ⟨f C,?_,hm'⟩,hRm⟩
    rw [container?_mapContainer,if_pos rfl,hp,hC,Option.map_some]

/-! ## Vertices and edges -/

theorem retains_pushItem (q : Query) (x : Item) : q.Retains (q.pushItem x) := by
  intro i y hy
  have hsame : (q.pushItem x).item? i = q.item? i := by
    rw [item?_pushItem,if_neg (ne_nextItem hy)]
  rw [describeVertex?,describeEdge?,hsame]
  exact ⟨rfl,rfl⟩

/-- A new vertex stands at the end of the vertices of its container. -/
theorem amends_withVertex (h : q.WellFormed) {v : Item} {entry : VertexEntry}
    (hv : v.describeVertex? = some entry) :
    Amends c (fun m m' => m' = { m with vertices := m.vertices ++ [entry] }) q
      (q.withVertex c v) := by
  refine amends_mapContainer h (retains_pushItem q _) rfl rfl (fun _ => rfl) (fun _ => ⟨rfl,rfl⟩)
    fun C m hC hm => ⟨_,?_,rfl⟩
  obtain ⟨hvs,hes,hrest⟩ := membersOf?_eq_some.mp hm
  have hnew : (q.pushItem { v with container := some c }).describeVertex? q.nextItem = some entry := by
    rw [describeVertex?,item?_pushItem,if_pos rfl]
    exact hv
  exact membersOf?_eq_some.mpr ⟨List.rel_append hvs (.cons hnew .nil),hes,hrest⟩

theorem describeEdge?_mapEnds (q : Query) (e : Item) :
    (e.mapEnds q.resolve).describeEdge? = e.describeEdge? := by
  obtain ⟨names,body⟩ := e
  cases body <;> rfl

theorem name_mapEndVertices (ends : EdgeEnds) (f : Item → Item) (q : Query) :
    (mapEndVertices ends f q).name = q.name ∧
      (mapEndVertices ends f q).description = q.description := by
  obtain ⟨source,target,_,_,_⟩ := ends
  cases source <;> cases target <;> exact ⟨rfl,rfl⟩

theorem entries_attachEnds (ends : EdgeEnds) (e : ItemId) (q : Query) (i : ItemId) :
    (mapEndVertices ends (Item.attach e) q).describeVertex? i = q.describeVertex? i ∧
      (mapEndVertices ends (Item.attach e) q).describeEdge? i = q.describeEdge? i := by
  have hsame : ∀ x : Item, (if ends.Touches i then x.attach e else x).SameButIncidence x ∧
      (if ends.Touches i then x.attach e else x).ends? = x.ends? := by
    intro x
    split
    · exact ⟨Item.sameButIncidence_attach e x,Item.ends?_attach e x⟩
    · exact ⟨.refl x,rfl⟩
  simp only [describeVertex?,describeEdge?,item?_mapEndVertices (fun x => Item.attach_attach e x)]
  cases q.item? i with
  | none => exact ⟨rfl,rfl⟩
  | some x => exact ⟨(hsame x).1.describeVertex?,(hsame x).1.describeEdge? (hsame x).2⟩

/-- A new edge stands at the end of the edges of its container. -/
theorem amends_withEdge (h : q.WellFormed) {e : Item} {ends : EdgeEnds} {entry : EdgeEntry}
    (he : e.describeEdge? = some entry) :
    Amends c (fun m m' => m' = { m with edges := m.edges ++ [entry] }) q
      (q.withEdge c e ends) := by
  have hrew := rewired_mapEndVertices (q.resolve ends) (Item.sameButIncidence_attach q.nextItem)
    (q.pushItem { (e.mapEnds q.resolve) with container := some c })
  have hentries := entries_attachEnds (q.resolve ends) q.nextItem
    (q.pushItem { (e.mapEnds q.resolve) with container := some c })
  have hname := name_mapEndVertices (q.resolve ends) (Item.attach q.nextItem)
    (q.pushItem { (e.mapEnds q.resolve) with container := some c })
  refine amends_mapContainer h (fun i x hx => ?_) hname.1 hname.2 hrew.container?
    (fun _ => ⟨rfl,rfl⟩) fun C m hC hm => ⟨_,?_,rfl⟩
  · rw [(hentries i).1,(hentries i).2]
    exact retains_pushItem q _ i x hx
  · obtain ⟨hvs,hes,hrest⟩ := membersOf?_eq_some.mp hm
    have hnew : (mapEndVertices (q.resolve ends) (Item.attach q.nextItem)
        (q.pushItem { (e.mapEnds q.resolve) with container := some c })).describeEdge? q.nextItem =
        some entry := by
      rw [(hentries _).2,describeEdge?,item?_pushItem,if_pos rfl]
      exact (describeEdge?_mapEnds q e).trans he
    exact membersOf?_eq_some.mpr ⟨hvs,List.rel_append hes (.cons hnew .nil),hrest⟩

/-! ## Declarations -/

/-- Declarations leave the items alone. -/
theorem amends_declare (h : q.WellFormed) {f : Container → Container}
    (hf : ∀ C, (f C).bounds = C.bounds ∧ (f C).subqueries = C.subqueries)
    (hR : ∀ C m, q.container? c = some C → q.membersOf? C = some m →
      ∃ m', q.membersOf? (f C) = some m' ∧ R m m') : Amends c R q (q.mapContainer c f) :=
  amends_mapContainer h (fun _ _ _ => ⟨rfl,rfl⟩) rfl rfl (fun _ => rfl) hf hR

/-- A new constraint stands at the end of the constraints, whatever is noted about it. -/
theorem amends_constraint (h : q.WellFormed) (k : Constraint) :
    Amends c (fun m m' => m' = { m with constraints := m.constraints ++ [k.entry] }) q
      (q.mapContainer c fun C => { C with constraints := C.constraints ++ [q.noted k] }) := by
  refine amends_declare h (fun _ => ⟨rfl,rfl⟩) fun C m _ hm => ⟨_,?_,rfl⟩
  obtain ⟨hvs,hes,hks,hrest⟩ := membersOf?_eq_some.mp hm
  refine membersOf?_eq_some.mpr ⟨hvs,hes,?_,hrest⟩
  rw [List.map_append,hks]
  rfl

/-- A new derived link stands at the end of the derived links. -/
theorem amends_link (h : q.WellFormed) (l : DerivedLink) :
    Amends c (fun m m' => m' = { m with links := m.links ++ [l] }) q
      (q.mapContainer c fun C => { C with links := C.links ++ [l] }) := by
  refine amends_declare h (fun _ => ⟨rfl,rfl⟩) fun C m _ hm => ⟨_,?_,rfl⟩
  obtain ⟨hvs,hes,hks,hls,hcached⟩ := membersOf?_eq_some.mp hm
  exact membersOf?_eq_some.mpr ⟨hvs,hes,hks,by rw [hls],hcached⟩

/-- Cached entries have come to those that were there, and if the names of those increase, all names
do. -/
def Caches (added es es' : List CachedEntry) : Prop :=
  es'.Perm (added ++ es) ∧ ((es.map CachedEntry.item).Pairwise (· < ·) →
    (es'.map CachedEntry.item).Pairwise (· < ·))

/-- A new cached item stands in its place among the cached items. -/
theorem amends_cached (h : q.WellFormed) (hC : q.container? c = some C) {item source : String}
    (hn : C.cached.contains item = false) :
    Amends c (fun m m' => m' = { m with cached := m'.cached } ∧
        Caches [⟨item,source⟩] m.cached m'.cached) q
      (q.mapContainer c fun C => { C with cached := C.cached.insert item source }) := by
  refine amends_declare h (fun _ => ⟨rfl,rfl⟩) fun D m hD hm => ?_
  cases hC.symm.trans hD
  obtain ⟨hvs,hes,hks,hls,hcached⟩ := membersOf?_eq_some.mp hm
  have hnew : item ∉ C.cached.keys := fun hk => by
    rw [OrderedMap.contains_iff.mpr hk] at hn
    cases hn
  have hkeys : ∀ m : OrderedMap String String,
      ((m.entries.map fun e => (⟨e.1,e.2⟩ : CachedEntry)).map CachedEntry.item) = m.keys :=
    fun m => by rw [List.map_map]; rfl
  refine ⟨{ m with cached := (C.cached.insert item source).entries.map fun e => ⟨e.1,e.2⟩ },
    membersOf?_eq_some.mpr ⟨hvs,hes,hks,hls,rfl⟩,rfl,?_,fun hp => ?_⟩
  · rw [← hcached]
    exact (OrderedMap.insert_perm source hnew).map _
  · rw [hkeys,OrderedMap.keys_insert]
    rw [← hcached,hkeys] at hp
    exact pairwise_insertOrdered hp

end Query

end GraphPattern
