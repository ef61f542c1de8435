import GraphPattern.Proofs.Query.Slots

/-!
# Incidence

A vertex lists the edges that end at it, and an edge names the vertices at its ends. The two views
agree when a vertex lists exactly the live edges that name it, and when every end that is known is
a live vertex. Everything that an edit does to the two views is made of five changes: a vertex
without edges comes or goes, an edge comes or goes, and all edges of a vertex move to another one.
-/

namespace GraphPattern

/-- Whether a vertex is at one of the ends. -/
def EdgeEnds.Touches (e : EdgeEnds) (v : ItemId) : Prop := e.source = some v ∨ e.target = some v

instance (e : EdgeEnds) (v : ItemId) : Decidable (e.Touches v) :=
  inferInstanceAs (Decidable (_ ∨ _))

namespace EdgeEnds

/-- Nothing happens to ends at which the vertex is not. -/
theorem redirect_of_not_touches {e : EdgeEnds} {old new : ItemId} (h : ¬e.Touches old) :
    e.redirect old new = e := by
  obtain ⟨h1,h2⟩ := not_or.mp h
  rw [redirect,if_neg h1,if_neg h2]

/-- Ends at a vertex stay if they are redirected to it. -/
theorem redirect_self (e : EdgeEnds) (v : ItemId) : e.redirect v v = e := by
  have hsame : ∀ {w : Option ItemId}, (if w = some v then some v else w) = w := by
    intro w
    split
    · exact Eq.symm ‹_›
    · rfl
  rw [redirect,hsame,hsame]

theorem touches_redirect {e : EdgeEnds} {old new v : ItemId} :
    (e.redirect old new).Touches v ↔ (v = new ∧ e.Touches old) ∨ (v ≠ old ∧ e.Touches v) ∨
      (v = old ∧ new = old ∧ e.Touches old) := by
  simp only [redirect,Touches]
  grind

theorem both?_eq_some {ends : EdgeEnds} {a b : ItemId} :
    ends.both? = some (a,b) ↔ ends.source = some a ∧ ends.target = some b := by
  obtain ⟨source,target,_,_,_⟩ := ends
  cases source <;> cases target <;> simp [both?]

/-- The end opposite to a vertex, spelled out. -/
theorem opposite?_eq_some {ends : EdgeEnds} {old new : ItemId}
    (h : ends.opposite? old = some new) :
    (ends.source = some old ∧ ends.target = some new) ∨
      (ends.source = some new ∧ ends.target = some old) := by
  rw [opposite?] at h
  cases hb : ends.both? with
  | none => simp [hb] at h
  | some ab =>
    obtain ⟨a,b⟩ := ab
    obtain ⟨ha,hb'⟩ := both?_eq_some.mp hb
    simp only [hb] at h
    split at h
    · rename_i hao
      cases h
      exact .inl ⟨hao ▸ ha,hb'⟩
    · split at h
      · rename_i hbo
        cases h
        exact .inr ⟨ha,hbo ▸ hb'⟩
      · cases h

theorem nameAmong?_mem {ends : EdgeEnds} {names : List String} {name : String}
    (h : ends.nameAmong? names = some name) : name ∈ names := by
  rw [nameAmong?] at h
  split at h
  · rename_i hs
    cases h
    exact hs
  · split at h
    · rename_i ht
      cases h
      exact ht
    · cases h

end EdgeEnds

namespace Item

/-- Whether an item is an edge with a vertex at one of its ends. -/
def Touches (x : Item) (v : ItemId) : Prop := ∃ ends, x.ends? = some ends ∧ ends.Touches v

theorem isVertex_iff {x : Item} : x.isVertex = true ↔ ∃ edges, x.edges? = some edges := by
  cases x with | mk _ body => cases body <;> simp [isVertex,edges?]

theorem not_isVertex_iff {x : Item} : x.isVertex = false ↔ ∃ ends, x.ends? = some ends := by
  cases x with | mk _ body => cases body <;> simp [isVertex,ends?]

theorem isVertex_of_kind {x : Item} (h : x.kind = .vertex ∨ x.kind = .composite) :
    x.isVertex = true := by
  cases x with
  | mk names body =>
    cases body with
    | vertex => rfl
    | edge => rcases h with h|h <;> cases h

theorem edges?_attach (e : ItemId) (x : Item) :
    (x.attach e).edges? = x.edges?.map (insertOrdered e) := by
  cases x with | mk _ body => cases body <;> rfl

theorem edges?_detach (e : ItemId) (x : Item) :
    (x.detach e).edges? = x.edges?.map fun es => es.filter (· ≠ e) := by
  cases x with | mk _ body => cases body <;> rfl

theorem attach_attach (e : ItemId) (x : Item) : (x.attach e).attach e = x.attach e := by
  cases x with
  | mk _ body =>
    cases body with
    | vertex composite edges => simp only [attach,insertOrdered_idem]
    | edge => rfl

theorem detach_detach (e : ItemId) (x : Item) : (x.detach e).detach e = x.detach e := by
  cases x with
  | mk _ body =>
    cases body with
    | vertex composite edges => simp only [detach,List.filter_filter,Bool.and_self]
    | edge => rfl

@[simp] theorem ends?_attach (e : ItemId) (x : Item) : (x.attach e).ends? = x.ends? := by
  cases x with | mk _ body => cases body <;> rfl

@[simp] theorem ends?_detach (e : ItemId) (x : Item) : (x.detach e).ends? = x.ends? := by
  cases x with | mk _ body => cases body <;> rfl

theorem ends?_mapEnds (f : EdgeEnds → EdgeEnds) (x : Item) :
    (x.mapEnds f).ends? = x.ends?.map f := by
  cases x with | mk _ body => cases body <;> rfl

@[simp] theorem edges?_mapEnds (f : EdgeEnds → EdgeEnds) (x : Item) :
    (x.mapEnds f).edges? = x.edges? := by
  cases x with | mk _ body => cases body <;> rfl

theorem mapEnds_id {f : EdgeEnds → EdgeEnds} {x : Item}
    (h : ∀ ends, x.ends? = some ends → f ends = ends) : x.mapEnds f = x := by
  cases x with
  | mk names body condition bounds provenance container =>
    cases body with
    | vertex => rfl
    | edge ends => simp [mapEnds,h ends rfl]

@[simp] theorem touches_attach {e v : ItemId} {x : Item} :
    (x.attach e).Touches v ↔ x.Touches v := by
  rw [Touches,Touches,ends?_attach]

@[simp] theorem touches_detach {e v : ItemId} {x : Item} :
    (x.detach e).Touches v ↔ x.Touches v := by
  rw [Touches,Touches,ends?_detach]

theorem touches_mapEnds_redirect {old new v : ItemId} {x : Item} (h : old ≠ new) :
    (x.mapEnds fun ends => ends.redirect old new).Touches v ↔
      (v = new ∧ x.Touches old) ∨ (v ≠ old ∧ x.Touches v) := by
  simp only [Touches,ends?_mapEnds,Option.map_eq_some_iff]
  constructor
  · rintro ⟨_,⟨ends,hx,rfl⟩,ht⟩
    rcases EdgeEnds.touches_redirect.mp ht with ⟨hv,ho⟩|⟨hv,ht⟩|⟨-,he,-⟩
    · exact .inl ⟨hv,ends,hx,ho⟩
    · exact .inr ⟨hv,ends,hx,ht⟩
    · exact absurd he.symm h
  · rintro (⟨hv,ends,hx,ho⟩|⟨hv,ends,hx,ht⟩)
    · exact ⟨_,⟨ends,hx,rfl⟩,EdgeEnds.touches_redirect.mpr (.inl ⟨hv,ho⟩)⟩
    · exact ⟨_,⟨ends,hx,rfl⟩,EdgeEnds.touches_redirect.mpr (.inr (.inl ⟨hv,ht⟩))⟩

theorem not_touches_of_edges? {x : Item} {edges : List ItemId} (h : x.edges? = some edges)
    (v : ItemId) : ¬x.Touches v := by
  rintro ⟨ends,he,-⟩
  cases x with
  | mk names body => cases body <;> simp [edges?,ends?] at h he

/-- Attaching, detaching and moving ends leave everything but the incidence alone. -/
structure SameButIncidence (x y : Item) : Prop where
  /-- The same names. -/
  names : x.names = y.names
  /-- The same class. -/
  kind : x.kind = y.kind
  /-- The same condition. -/
  condition : x.condition = y.condition
  /-- The same annotation. -/
  bounds : x.bounds = y.bounds
  /-- The same marker. -/
  provenance : x.provenance = y.provenance
  /-- The same owner. -/
  container : x.container = y.container

theorem sameButIncidence_attach (e : ItemId) (x : Item) : (x.attach e).SameButIncidence x := by
  cases x with
  | mk names body =>
    cases body with
    | vertex composite => cases composite <;> exact ⟨rfl,rfl,rfl,rfl,rfl,rfl⟩
    | edge => exact ⟨rfl,rfl,rfl,rfl,rfl,rfl⟩

theorem sameButIncidence_detach (e : ItemId) (x : Item) : (x.detach e).SameButIncidence x := by
  cases x with
  | mk names body =>
    cases body with
    | vertex composite => cases composite <;> exact ⟨rfl,rfl,rfl,rfl,rfl,rfl⟩
    | edge => exact ⟨rfl,rfl,rfl,rfl,rfl,rfl⟩

theorem sameButIncidence_mapEnds (f : EdgeEnds → EdgeEnds) (x : Item) :
    (x.mapEnds f).SameButIncidence x := by
  cases x with
  | mk names body => cases body <;> exact ⟨rfl,rfl,rfl,rfl,rfl,rfl⟩

namespace SameButIncidence

variable {x y z : Item}

theorem refl (x : Item) : x.SameButIncidence x := ⟨rfl,rfl,rfl,rfl,rfl,rfl⟩

theorem trans (h : x.SameButIncidence y) (i : y.SameButIncidence z) : x.SameButIncidence z :=
  ⟨h.names.trans i.names,h.kind.trans i.kind,h.condition.trans i.condition,
    h.bounds.trans i.bounds,h.provenance.trans i.provenance,h.container.trans i.container⟩

theorem isComposite (h : x.SameButIncidence y) : x.isComposite = y.isComposite := by
  rw [Item.isComposite,Item.isComposite,h.kind]

theorem isVertex (h : x.SameButIncidence y) : x.isVertex = y.isVertex := by
  have key : ∀ x : Item, x.isVertex = (x.kind ≠ .edge : Bool) := fun x => by
    cases x with
    | mk names body =>
      cases body with
      | vertex composite => cases composite <;> rfl
      | edge => rfl
  rw [key,key,h.kind]

end SameButIncidence

section Conditional

variable {e v : ItemId} {x : Item} {es : List ItemId} {p : Prop} [Decidable p]

theorem touches_attach_if : (if p then x.attach e else x).Touches v ↔ x.Touches v := by
  split
  · exact touches_attach
  · exact Iff.rfl

theorem touches_detach_if : (if p then x.detach e else x).Touches v ↔ x.Touches v := by
  split
  · exact touches_detach
  · exact Iff.rfl

theorem isVertex_attach_if (h : x.isVertex = true) :
    (if p then x.attach e else x).isVertex = true := by
  split
  · exact (sameButIncidence_attach e x).isVertex.trans h
  · exact h

theorem isVertex_detach_if (h : x.isVertex = true) :
    (if p then x.detach e else x).isVertex = true := by
  split
  · exact (sameButIncidence_detach e x).isVertex.trans h
  · exact h

/-- An edge that is attached comes to the others, in its place. -/
theorem edges?_attach_if (h : (if p then x.attach e else x).edges? = some es) :
    ∃ fs, x.edges? = some fs ∧ (∀ f, f ∈ es ↔ f ∈ fs ∨ (f = e ∧ p)) ∧
      (fs.Pairwise (· < ·) → es.Pairwise (· < ·)) := by
  split at h
  · rename_i hp
    rw [edges?_attach] at h
    obtain ⟨fs,hfs,rfl⟩ := Option.map_eq_some_iff.mp h
    refine ⟨fs,hfs,fun f => ?_,pairwise_insertOrdered⟩
    rw [mem_insertOrdered,or_comm]
    simp only [hp,and_true]
  · rename_i hp
    exact ⟨es,h,fun f => by simp only [hp,and_false,or_false],id⟩

/-- An edge that is detached goes from the others. -/
theorem edges?_detach_if (h : (if p then x.detach e else x).edges? = some es) :
    ∃ fs, x.edges? = some fs ∧ (∀ f, f ∈ es ↔ f ∈ fs ∧ ¬(f = e ∧ p)) ∧
      (fs.Pairwise (· < ·) → es.Pairwise (· < ·)) := by
  split at h
  · rename_i hp
    rw [edges?_detach] at h
    obtain ⟨fs,hfs,rfl⟩ := Option.map_eq_some_iff.mp h
    refine ⟨fs,hfs,fun f => ?_,fun hfs => hfs.filter _⟩
    simp only [List.mem_filter,decide_eq_true_eq,hp,and_true,ne_eq]
  · rename_i hp
    exact ⟨es,h,fun f => by simp only [hp,and_false,not_false_eq_true,and_true],id⟩

end Conditional

end Item

namespace Query

/-- Lists of incident edges and ends of edges agree. -/
structure Incident (q : Query) : Prop where
  /-- A vertex lists exactly the live edges at one of whose ends it is. -/
  joined : ∀ {v x edges e}, q.item? v = some x → x.edges? = some edges →
    (e ∈ edges ↔ ∃ y, q.item? e = some y ∧ y.Touches v)
  /-- The edges of a vertex stand in increasing order. -/
  increasing : ∀ {v x edges}, q.item? v = some x → x.edges? = some edges →
    edges.Pairwise (· < ·)
  /-- A known end is a live vertex. -/
  ended : ∀ {e y v}, q.item? e = some y → y.Touches v →
    ∃ x, q.item? v = some x ∧ x.isVertex = true

/-- An edge is no vertex. -/
theorem ne_of_ends {q : Query} {e v : ItemId} {x y : Item} {ends : EdgeEnds}
    (hx : q.item? e = some x) (he : x.ends? = some ends) (hy : q.item? v = some y)
    (hv : y.isVertex = true) : v ≠ e := by
  rintro rfl
  rw [hx] at hy
  cases hy
  rw [Item.not_isVertex_iff.mpr ⟨ends,he⟩] at hv
  cases hv

namespace Incident

variable {q q' : Query}

/-- A vertex lists no edge twice. -/
theorem nodup_edges (h : q.Incident) {v : ItemId} {x : Item} {edges : List ItemId}
    (hx : q.item? v = some x) (he : x.edges? = some edges) : edges.Nodup := by
  refine (h.increasing hx he).imp fun hlt heq => ?_
  cases heq
  exact Nat.lt_irrefl _ hlt

/-- An edge does not end at itself. -/
theorem not_touches_self (h : q.Incident) {e : ItemId} {x : Item} {ends : EdgeEnds}
    (hx : q.item? e = some x) (he : x.ends? = some ends) : ¬ends.Touches e := fun ht => by
  obtain ⟨y,hy,hv⟩ := h.ended hx ⟨ends,he,ht⟩
  exact ne_of_ends hx he hy hv rfl

/-- Only what items are counts. -/
theorem of_same (h : q.Incident)
    (hq : ∀ j, (q'.item? j).map Item.body = (q.item? j).map Item.body) : q'.Incident := by
  have edges : ∀ {x y : Item}, y.body = x.body → y.edges? = x.edges? := fun he => by
    simp only [Item.edges?,he]
  have touches : ∀ {x y : Item} {v}, y.body = x.body → x.Touches v → y.Touches v := by
    rintro x y v he ⟨ends,hx,ht⟩
    exact ⟨ends,by simpa only [Item.ends?,he] using hx,ht⟩
  constructor
  · intro v x es e hx he
    obtain ⟨y,hy,hb⟩ := exists_of_map_eq (hq v) hx
    rw [h.joined hy ((edges hb).trans he)]
    constructor
    · rintro ⟨z,hz,ht⟩
      obtain ⟨w,hw,hb'⟩ := exists_of_map_eq (hq e).symm hz
      exact ⟨w,hw,touches hb' ht⟩
    · rintro ⟨z,hz,ht⟩
      obtain ⟨w,hw,hb'⟩ := exists_of_map_eq (hq e) hz
      exact ⟨w,hw,touches hb' ht⟩
  · intro v x es hx he
    obtain ⟨y,hy,hb⟩ := exists_of_map_eq (hq v) hx
    exact h.increasing hy ((edges hb).trans he)
  · intro e y v hy ht
    obtain ⟨z,hz,hb⟩ := exists_of_map_eq (hq e) hy
    obtain ⟨x,hx,hv⟩ := h.ended hz (touches hb ht)
    obtain ⟨w,hw,hb'⟩ := exists_of_map_eq (hq v).symm hx
    exact ⟨w,hw,by simpa only [Item.isVertex,hb'] using hv⟩

/-- At a fresh number no edge ends. -/
theorem not_touches_nextItem (h : q.Incident) {e : ItemId} {y : Item} (hy : q.item? e = some y) :
    ¬y.Touches q.nextItem := by
  intro ht
  obtain ⟨x,hx,-⟩ := h.ended hy ht
  rw [q.item?_nextItem] at hx
  cases hx

/-- A new vertex without edges. -/
theorem pushVertex (h : q.Incident) {x : Item} (hx : x.edges? = some []) :
    (q.pushItem x).Incident := by
  have hnone := Item.not_touches_of_edges? hx
  have hfresh := @h.not_touches_nextItem
  have hn := q.item?_nextItem
  constructor
  · intro v z es e hz he
    have hj := @h.joined
    simp only [item?_pushItem] at hz ⊢
    grind
  · intro v z es hz he
    have hi := @h.increasing
    simp only [item?_pushItem] at hz
    split at hz
    · cases hz
      rw [hx] at he
      cases he
      exact List.Pairwise.nil
    · exact h.increasing hz he
  · intro e y v hy ht
    have he := @h.ended
    simp only [item?_pushItem] at hy ⊢
    grind

/-- Removal of a vertex at which no edge ends. -/
theorem dropVertex (h : q.Incident) {v : ItemId} {x : Item} (hv : q.item? v = some x)
    (hx : x.edges? = some []) : (q.dropItem v).Incident := by
  have hfree : ∀ {e y}, q.item? e = some y → ¬y.Touches v := fun {e y} hy ht => by
    have := (h.joined hv hx).mpr ⟨y,hy,ht⟩
    cases this
  have hnone := Item.not_touches_of_edges? hx
  constructor
  · intro w z es e hz he
    have hj := @h.joined
    simp only [item?_dropItem] at hz ⊢
    grind
  · intro w z es hz he
    simp only [item?_dropItem] at hz
    split at hz
    · cases hz
    · exact h.increasing hz he
  · intro e y w hy ht
    have he := @h.ended
    simp only [item?_dropItem] at hy ⊢
    grind

/-- A new edge, attached to the vertices at its ends. -/
theorem pushEdge (h : q.Incident) {y : Item} {ends : EdgeEnds} (hy : y.ends? = some ends)
    (hends : ∀ v, ends.Touches v → ∃ x, q.item? v = some x ∧ x.isVertex = true)
    (hq : ∀ j, q'.item? j = if j = q.nextItem then some y else (q.item? j).map fun x =>
      if ends.Touches j then x.attach q.nextItem else x) : q'.Incident := by
  have hn := q.item?_nextItem
  have hyt : ∀ v, y.Touches v ↔ ends.Touches v := fun v => by simp [Item.Touches,hy]
  have hnew : q'.item? q.nextItem = some y := by rw [hq,if_pos rfl]
  have back : ∀ {j x}, q'.item? j = some x → (j = q.nextItem ∧ x = y) ∨ ∃ z, q.item? j = some z ∧
      x = if ends.Touches j then z.attach q.nextItem else z := by
    intro j x hx
    rw [hq] at hx
    split at hx
    · rename_i hj
      exact .inl ⟨hj,(Option.some.inj hx).symm⟩
    · obtain ⟨z,hz,he⟩ := Option.map_eq_some_iff.mp hx
      exact .inr ⟨z,hz,he.symm⟩
  have forth : ∀ {j z}, q.item? j = some z →
      q'.item? j = some (if ends.Touches j then z.attach q.nextItem else z) := by
    intro j z hz
    have hj : j ≠ q.nextItem := fun he => by rw [he,hn] at hz; cases hz
    rw [hq,if_neg hj,hz]
    rfl
  -- A vertex is an old one.
  have vertex : ∀ {v x es}, q'.item? v = some x → x.edges? = some es → ∃ z, q.item? v = some z ∧
      x = if ends.Touches v then z.attach q.nextItem else z := by
    intro v x es hx hes
    rcases back hx with ⟨-,rfl⟩|hz
    · have hvertex := Item.isVertex_iff.mpr ⟨es,hes⟩
      rw [Item.not_isVertex_iff.mpr ⟨ends,hy⟩] at hvertex
      cases hvertex
    · exact hz
  constructor
  · intro v x es e hx hes
    obtain ⟨z,hz,rfl⟩ := vertex hx hes
    obtain ⟨fs,hfs,hmem,-⟩ := Item.edges?_attach_if hes
    rw [hmem,h.joined hz hfs]
    constructor
    · rintro (⟨w,hw,ht⟩|⟨rfl,ht⟩)
      · exact ⟨_,forth hw,Item.touches_attach_if.mpr ht⟩
      · exact ⟨y,hnew,(hyt v).mpr ht⟩
    · rintro ⟨w,hw,ht⟩
      rcases back hw with ⟨he,rfl⟩|⟨w',hw',rfl⟩
      · exact .inr ⟨he,(hyt v).mp ht⟩
      · exact .inl ⟨w',hw',Item.touches_attach_if.mp ht⟩
  · intro v x es hx hes
    obtain ⟨z,hz,rfl⟩ := vertex hx hes
    obtain ⟨fs,hfs,-,hpair⟩ := Item.edges?_attach_if hes
    exact hpair (h.increasing hz hfs)
  · intro e w v hw ht
    have hold : ∃ x, q.item? v = some x ∧ x.isVertex = true := by
      rcases back hw with ⟨-,rfl⟩|⟨w',hw',rfl⟩
      · exact hends v ((hyt v).mp ht)
      · exact h.ended hw' (Item.touches_attach_if.mp ht)
    obtain ⟨x,hx,hv⟩ := hold
    exact ⟨_,forth hx,Item.isVertex_attach_if hv⟩

/-- Removal of an edge, detached from the vertices at its ends. -/
theorem dropEdge (h : q.Incident) {e : ItemId} {y : Item} {ends : EdgeEnds}
    (he : q.item? e = some y) (hy : y.ends? = some ends)
    (hq : ∀ j, q'.item? j = if j = e then none else (q.item? j).map fun x =>
      if ends.Touches j then x.detach e else x) : q'.Incident := by
  have back : ∀ {j x}, q'.item? j = some x → j ≠ e ∧ ∃ z, q.item? j = some z ∧
      x = if ends.Touches j then z.detach e else z := by
    intro j x hx
    rw [hq] at hx
    split at hx
    · cases hx
    · rename_i hj
      obtain ⟨z,hz,he⟩ := Option.map_eq_some_iff.mp hx
      exact ⟨hj,z,hz,he.symm⟩
  have forth : ∀ {j z}, j ≠ e → q.item? j = some z →
      q'.item? j = some (if ends.Touches j then z.detach e else z) := by
    intro j z hj hz
    rw [hq,if_neg hj,hz]
    rfl
  -- The edge ends where its ends say.
  have hends : ∀ {w v}, q.item? e = some w → w.Touches v → ends.Touches v := by
    rintro w v hw ⟨ends',hw',ht⟩
    rw [he] at hw
    cases hw
    rw [hy] at hw'
    cases hw'
    exact ht
  constructor
  · intro v x es f hx hes
    obtain ⟨-,z,hz,rfl⟩ := back hx
    obtain ⟨fs,hfs,hmem,-⟩ := Item.edges?_detach_if hes
    rw [hmem,h.joined hz hfs]
    constructor
    · rintro ⟨⟨w,hw,ht⟩,hf⟩
      have hfe : f ≠ e := by
        rintro rfl
        exact hf ⟨rfl,hends hw ht⟩
      exact ⟨_,forth hfe hw,Item.touches_detach_if.mpr ht⟩
    · rintro ⟨w,hw,ht⟩
      obtain ⟨hf,w',hw',rfl⟩ := back hw
      exact ⟨⟨w',hw',Item.touches_detach_if.mp ht⟩,fun hfe => hf hfe.1⟩
  · intro v x es hx hes
    obtain ⟨-,z,hz,rfl⟩ := back hx
    obtain ⟨fs,hfs,-,hpair⟩ := Item.edges?_detach_if hes
    exact hpair (h.increasing hz hfs)
  · intro f w v hw ht
    obtain ⟨-,w',hw',rfl⟩ := back hw
    obtain ⟨x,hx,hv⟩ := h.ended hw' (Item.touches_detach_if.mp ht)
    exact ⟨_,forth (ne_of_ends he hy hx hv) hx,Item.isVertex_detach_if hv⟩

/-- What ends somewhere has no list of edges. -/
theorem ne_of_touches {e i v : ItemId} {x y : Item} {es : List ItemId} (hy : q.item? e = some y)
    (ht : y.Touches v) (hx : q.item? i = some x) (hes : x.edges? = some es) : e ≠ i := by
  rintro rfl
  rw [hx] at hy
  cases hy
  exact Item.not_touches_of_edges? hes v ht

/-- A vertex stands in no list of edges. -/
theorem not_mem_edges_of_edges? (h : q.Incident) {v i : ItemId} {x y : Item}
    {es fs : List ItemId} (hx : q.item? v = some x) (hes : x.edges? = some es)
    (hy : q.item? i = some y) (hfs : y.edges? = some fs) : i ∉ es := fun hm => by
  obtain ⟨z,hz,ht⟩ := (h.joined hx hes).mp hm
  exact ne_of_touches hz ht hy hfs rfl

/-- The next number stands in no list of edges. -/
theorem nextItem_not_mem_edges (h : q.Incident) {v : ItemId} {x : Item} {es : List ItemId}
    (hx : q.item? v = some x) (hes : x.edges? = some es) : q.nextItem ∉ es := fun hm => by
  obtain ⟨z,hz,-⟩ := (h.joined hx hes).mp hm
  exact ne_nextItem hz rfl

/-- The edges at a vertex after all edges of a vertex have moved to another one, in terms of those
before. -/
theorem touches_move {old new e v : ItemId} {x y x' y' : Item} {es es' fs fs' : List ItemId}
    (hne : old ≠ new) (ho : q.item? old = some x) (hx : x.edges? = some es)
    (hnew : q.item? new = some y) (hy : y.edges? = some fs) (ho' : q'.item? old = some x')
    (hx' : x'.edges? = some es') (hnew' : q'.item? new = some y') (hy' : y'.edges? = some fs')
    (hq : ∀ j, j ≠ old → j ≠ new → q'.item? j = (q.item? j).map fun z =>
      z.mapEnds fun ends => ends.redirect old new) :
    (∃ z, q'.item? e = some z ∧ z.Touches v) ↔
      ((v = new ∧ ∃ w, q.item? e = some w ∧ w.Touches old) ∨
        (v ≠ old ∧ ∃ w, q.item? e = some w ∧ w.Touches v)) := by
  have forth : ∀ {w u}, q.item? e = some w → w.Touches u →
      q'.item? e = some (w.mapEnds fun ends => ends.redirect old new) := by
    intro w u hw ht
    rw [hq e (ne_of_touches hw ht ho hx) (ne_of_touches hw ht hnew hy),hw]
    rfl
  constructor
  · rintro ⟨z,hz,ht⟩
    rw [hq e (ne_of_touches hz ht ho' hx') (ne_of_touches hz ht hnew' hy')] at hz
    obtain ⟨w,hw,rfl⟩ := Option.map_eq_some_iff.mp hz
    rcases (Item.touches_mapEnds_redirect hne).mp ht with ⟨hv,ht⟩|⟨hv,ht⟩
    · exact .inl ⟨hv,w,hw,ht⟩
    · exact .inr ⟨hv,w,hw,ht⟩
  · rintro (⟨hv,w,hw,ht⟩|⟨hv,w,hw,ht⟩)
    · exact ⟨_,forth hw ht,(Item.touches_mapEnds_redirect hne).mpr (.inl ⟨hv,ht⟩)⟩
    · exact ⟨_,forth hw ht,(Item.touches_mapEnds_redirect hne).mpr (.inr ⟨hv,ht⟩)⟩

/-- All edges of a vertex moved to another one. -/
theorem move (h : q.Incident) {old new : ItemId} {x y : Item} {moved edges edges' : List ItemId}
    (hne : old ≠ new) (ho : q.item? old = some x) (hx : x.edges? = some moved)
    (hnew : q.item? new = some y) (hy : y.edges? = some edges)
    (hmem : ∀ e, e ∈ edges' ↔ e ∈ edges ∨ e ∈ moved) (hinc : edges'.Pairwise (· < ·))
    (hqo : ∃ x', q'.item? old = some x' ∧ x'.edges? = some [])
    (hqn : ∃ y', q'.item? new = some y' ∧ y'.edges? = some edges')
    (hq : ∀ j, j ≠ old → j ≠ new → q'.item? j = (q.item? j).map fun z =>
      z.mapEnds fun ends => ends.redirect old new) : q'.Incident := by
  obtain ⟨x',hx',hx'e⟩ := hqo
  obtain ⟨y',hy',hy'e⟩ := hqn
  have key : ∀ {e v}, (∃ z, q'.item? e = some z ∧ z.Touches v) ↔ _ := fun {e v} =>
    touches_move (e:=e) (v:=v) hne ho hx hnew hy hx' hx'e hy' hy'e hq
  -- The list of a vertex is empty, the joined one, or the old one.
  have lists : ∀ {v z es}, q'.item? v = some z → z.edges? = some es → (v = old ∧ es = []) ∨
      (v = new ∧ es = edges') ∨ v ≠ old ∧ v ≠ new ∧ ∃ w, q.item? v = some w ∧ w.edges? = some es := by
    intro v z es hz hes
    by_cases h1 : v = old
    · rw [h1,hx'] at hz
      cases hz
      exact .inl ⟨h1,Option.some.inj (hes.symm.trans hx'e)⟩
    · by_cases h2 : v = new
      · rw [h2,hy'] at hz
        cases hz
        exact .inr (.inl ⟨h2,Option.some.inj (hes.symm.trans hy'e)⟩)
      · rw [hq v h1 h2] at hz
        obtain ⟨w,hw,rfl⟩ := Option.map_eq_some_iff.mp hz
        rw [Item.edges?_mapEnds] at hes
        exact .inr (.inr ⟨h1,h2,w,hw,hes⟩)
  constructor
  · intro v z es e hz hes
    rw [key]
    rcases lists hz hes with ⟨rfl,rfl⟩|⟨rfl,rfl⟩|⟨h1,h2,w,hw,hes⟩
    · simp [hne]
    · rw [hmem,h.joined hnew hy,h.joined ho hx,or_comm]
      simp only [true_and,ne_eq,Ne.symm hne,not_false_eq_true]
    · rw [h.joined hw hes]
      simp only [h1,h2,false_and,false_or,ne_eq,not_false_eq_true,true_and]
  · intro v z es hz hes
    rcases lists hz hes with ⟨-,rfl⟩|⟨-,rfl⟩|⟨-,-,w,hw,hes⟩
    · exact List.Pairwise.nil
    · exact hinc
    · exact h.increasing hw hes
  · intro e z v hz ht
    by_cases hv : v = new
    · exact ⟨y',hv ▸ hy',Item.isVertex_iff.mpr ⟨edges',hy'e⟩⟩
    · rcases key.mp ⟨z,hz,ht⟩ with ⟨hv',-⟩|⟨hvo,w,hw,htw⟩
      · exact absurd hv' hv
      · obtain ⟨u,hu,huv⟩ := h.ended hw htw
        exact ⟨_,by rw [hq v hvo hv,hu]; rfl,(Item.sameButIncidence_mapEnds _ u).isVertex.trans huv⟩

end Incident

end Query

end GraphPattern
