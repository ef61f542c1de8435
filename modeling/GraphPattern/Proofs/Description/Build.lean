import GraphPattern.Description.Build
import GraphPattern.Proofs.Query.History
import GraphPattern.Proofs.Rule.Reduction

/-!
# Queries that are built from descriptions

A query that is built holds what a user can write and nothing else: plain items with one name each,
no markers, and ends that carry the name that is written for them. Plans can be made of it, as long
as every constant that a constraint compares with is equal to itself.
-/

namespace GraphPattern

open Step

/-- An item as a user can write it. -/
structure Item.Written (x : Item) : Prop where
  /-- It has one name. -/
  single : ∃ n, x.names = [n]
  /-- It stands for itself. -/
  plain : x.kind ≠ .composite
  /-- It is not marked. -/
  unmarked : x.provenance = none

/-- A constraint that is found again and that is about an item. -/
structure Constraint.Proper (k : Constraint) : Prop where
  /-- It is found equal to itself. -/
  again : k.sameRelation k = true
  /-- One of its operands is an item. -/
  item : ¬(k.left.isLiteral = true ∧ k.right.isLiteral = true)

namespace Query

/-- A query as a user can write it. -/
structure Written (q : Query) : Prop where
  /-- It is well formed. -/
  wellFormed : q.WellFormed
  /-- Its items are written. -/
  item : ∀ {i x}, q.item? i = some x → x.Written
  /-- The name written for a known first end is a name of the vertex there. -/
  source : ∀ {e y ends v}, q.item? e = some y → y.ends? = some ends → ends.source = some v →
    ∃ x, q.item? v = some x ∧ ends.sourceName ∈ x.names
  /-- The name written for a known second end is a name of the vertex there. -/
  target : ∀ {e y ends v}, q.item? e = some y → y.ends? = some ends → ends.target = some v →
    ∃ x, q.item? v = some x ∧ ends.targetName ∈ x.names

/-- Every constraint has a property. -/
def Constrained (P : Constraint → Prop) (q : Query) : Prop :=
  ∀ c C k, q.container? c = some C → k ∈ C.constraints → P k

/-- Every constraint is found again and is about an item. -/
def Comparable (q : Query) : Prop :=
  ∀ c C k, q.container? c = some C → k ∈ C.constraints → k.Proper

variable {q q' : Query} {P : Constraint → Prop}

theorem Written.reducible (h : q.Written) : q.Reducible where
  wellFormed := h.wellFormed
  unmarked hx _ := (h.item hx).unmarked
  source := h.source
  target := h.target

theorem Written.plannable (h : q.Written) (hc : q.Comparable) : q.Plannable where
  toReducible := h.reducible
  comparable hC hk := (hc _ _ _ hC hk).again

theorem written_bare (name description : String) : (bare name description).Written := by
  have hnone : ∀ {i x}, (bare name description).item? i ≠ some x := nofun
  exact ⟨wellFormed_bare name description,fun hx => absurd hx hnone,
    fun hy => absurd hy hnone,fun hy => absurd hy hnone⟩

theorem Written.of_same (h : q.Written) (hq : q'.WellFormed)
    (hi : ∀ i, q'.item? i = q.item? i) : q'.Written where
  wellFormed := hq
  item hx := h.item (hi _ ▸ hx)
  source hy he hv := by
    obtain ⟨x,hx,hn⟩ := h.source (hi _ ▸ hy) he hv
    exact ⟨x,(hi _).trans hx,hn⟩
  target hy he hv := by
    obtain ⟨x,hx,hn⟩ := h.target (hi _ ▸ hy) he hv
    exact ⟨x,(hi _).trans hx,hn⟩

/-- One written item more, whose ends are named after vertices that are there. -/
theorem Written.of_put (h : q.Written) (hq : q'.WellFormed) (new : Item) (hn : new.Written)
    (hs : ∀ {ends v}, new.ends? = some ends → ends.source = some v →
      ∃ x, q.item? v = some x ∧ ends.sourceName ∈ x.names)
    (ht : ∀ {ends v}, new.ends? = some ends → ends.target = some v →
      ∃ x, q.item? v = some x ∧ ends.targetName ∈ x.names)
    (hback : ∀ {i y}, q'.item? i = some y → (y.SameButIncidence new ∧ y.ends? = new.ends?) ∨
      ∃ x, q.item? i = some x ∧ y.SameButIncidence x ∧ y.ends? = x.ends?)
    (hkept : ∀ {i x}, q.item? i = some x → ∃ y, q'.item? i = some y ∧ y.names = x.names) :
    q'.Written where
  wellFormed := hq
  item hy := by
    rcases hback hy with ⟨hsame,-⟩|⟨x,hx,hsame,-⟩
    · exact ⟨hsame.names ▸ hn.single,hsame.kind ▸ hn.plain,hsame.provenance ▸ hn.unmarked⟩
    · have hw := h.item hx
      exact ⟨hsame.names ▸ hw.single,hsame.kind ▸ hw.plain,hsame.provenance ▸ hw.unmarked⟩
  source := by
    intro e y ends v hy he hv
    have hold : ∃ x, q.item? v = some x ∧ ends.sourceName ∈ x.names := by
      rcases hback hy with ⟨-,hends⟩|⟨x,hx,-,hends⟩
      · exact hs (hends ▸ he) hv
      · exact h.source hx (hends ▸ he) hv
    obtain ⟨x,hx,hname⟩ := hold
    obtain ⟨y,hy,hnames⟩ := hkept hx
    exact ⟨y,hy,hnames ▸ hname⟩
  target := by
    intro e y ends v hy he hv
    have hold : ∃ x, q.item? v = some x ∧ ends.targetName ∈ x.names := by
      rcases hback hy with ⟨-,hends⟩|⟨x,hx,-,hends⟩
      · exact ht (hends ▸ he) hv
      · exact h.target hx (hends ▸ he) hv
    obtain ⟨x,hx,hname⟩ := hold
    obtain ⟨y,hy,hnames⟩ := hkept hx
    exact ⟨y,hy,hnames ▸ hname⟩

theorem Written.withVertex (h : q.Written) {c : ContainerId} {C : Container} {v : Item}
    (hw : v.Written) (hv : v.edges? = some []) (hn : v.WellNamed) (hc : q.container? c = some C)
    (hf : q.Free v.names none) : (q.withVertex c v).Written := by
  have hitem : ∀ i, (q.withVertex c v).item? i =
      if i = q.nextItem then some { v with container := some c } else q.item? i := by
    intro i
    rw [Query.withVertex,item?_mapContainer,item?_pushItem]
  have hnone : v.ends? = none := by
    cases v with
    | mk names body => cases body with
      | vertex => rfl
      | edge => cases hv
  refine h.of_put (h.wellFormed.withVertex hv hn hc hf) { v with container := some c }
    ⟨hw.single,hw.plain,hw.unmarked⟩ (fun he => ?_) (fun he => ?_) (fun {i y} hy => ?_)
    fun {i x} hx => ?_
  · cases hnone.symm.trans he
  · cases hnone.symm.trans he
  · rw [hitem] at hy
    split at hy
    · cases hy
      exact .inl ⟨.refl _,rfl⟩
    · exact .inr ⟨y,hy,.refl _,rfl⟩
  · have hne := ne_nextItem hx
    exact ⟨x,by rw [hitem,if_neg hne,hx],rfl⟩

theorem Written.withEdge (h : q.Written) {c : ContainerId} {C : Container} {e : Item}
    {ends : EdgeEnds} (hw : e.Written) (he : e.ends? = some ends) (hn : e.WellNamed)
    (hc : q.container? c = some C) (hf : q.Free e.names none) : (q.withEdge c e ends).Written := by
  have hse := Item.sameButIncidence_mapEnds q.resolve e
  have hnew := ends?_resolved q c he
  have hitem : ∀ i, (q.withEdge c e ends).item? i =
      ((q.pushItem { (e.mapEnds q.resolve) with container := some c }).item? i).map fun x =>
        if (q.resolve ends).Touches i then x.attach q.nextItem else x := by
    intro i
    rw [Query.withEdge,item?_mapContainer,
      item?_mapEndVertices (fun x => Item.attach_attach q.nextItem x)]
  refine h.of_put (h.wellFormed.withEdge he hn hc hf)
    { (e.mapEnds q.resolve) with container := some c }
    ⟨hse.names ▸ hw.single,fun hk => hw.plain (hse.kind ▸ hk),hse.provenance.trans hw.unmarked⟩
    (fun he' hv => ?_) (fun he' hv => ?_) (fun {i y} hy => ?_) fun {i x} hx => ?_
  · rw [hnew] at he'
    cases he'
    exact (live_of_vertexContaining? hv).2
  · rw [hnew] at he'
    cases he'
    exact (live_of_vertexContaining? hv).2
  · rw [hitem] at hy
    obtain ⟨z,hz,rfl⟩ := Option.map_eq_some_iff.mp hy
    have hsame : ∀ x : Item, (if (q.resolve ends).Touches i then x.attach q.nextItem
        else x).SameButIncidence x ∧ (if (q.resolve ends).Touches i then x.attach q.nextItem
        else x).ends? = x.ends? := by
      intro x
      split
      · exact ⟨Item.sameButIncidence_attach _ x,Item.ends?_attach _ x⟩
      · exact ⟨.refl x,rfl⟩
    rw [item?_pushItem] at hz
    split at hz
    · cases hz
      exact .inl (hsame _)
    · exact .inr ⟨z,hz,hsame z⟩
  · have hne := ne_nextItem hx
    rw [hitem,item?_pushItem,if_neg hne,hx]
    refine ⟨_,rfl,?_⟩
    simp only
    split
    · exact (Item.sameButIncidence_attach _ x).names
    · rfl

theorem Constrained.of_constraints (h : q.Constrained P) (hc : ∀ {c C' k},
    q'.container? c = some C' → k ∈ C'.constraints → P k ∨
      ∃ d D, q.container? d = some D ∧ k ∈ D.constraints) : q'.Constrained P := by
  intro c C' k hC hk
  rcases hc hC hk with hk|⟨d,D,hD,hk⟩
  · exact hk
  · exact h d D k hD hk

theorem Constrained.mapContainer (h : q.Constrained P) {c : ContainerId}
    {f : Container → Container} (hf : ∀ C k, k ∈ (f C).constraints → P k ∨ k ∈ C.constraints) :
    (q.mapContainer c f).Constrained P := by
  refine h.of_constraints fun {d D k} hD hk => ?_
  rw [container?_mapContainer] at hD
  split at hD
  · obtain ⟨C,hC,rfl⟩ := Option.map_eq_some_iff.mp hD
    exact (hf C k hk).imp id fun hk => ⟨d,C,hC,hk⟩
  · exact .inr ⟨d,D,hD,hk⟩

end Query

/-! ## Entries -/

theorem Item.checkedWith_ok {x y : Item} {condition : Option Condition} {bounds : Option Annotation}
    (h : x.checkedWith condition bounds = .ok y) :
    ∃ c b, y = { x with condition := c, bounds := b } := by
  rw [Item.checkedWith] at h
  cases hc : condition.mapM Condition.checked with
  | error e => rw [hc] at h; cases h
  | ok c =>
    cases hb : bounds.mapM Annotation.checked with
    | error e => rw [hc,hb] at h; cases h
    | ok b =>
      rw [hc,hb] at h
      cases h
      exact ⟨c,b,rfl⟩

theorem VertexEntry.item_ok {v : VertexEntry} {x : Item} (h : v.item = .ok x) :
    x.Written ∧ x.Detached ∧ x.isVertex = true := by
  rw [VertexEntry.item] at h
  cases hn : Item.newVertex v.name with
  | error e => rw [hn] at h; cases h
  | ok y =>
    rw [hn,ok_bind] at h
    obtain ⟨c,b,rfl⟩ := Item.checkedWith_ok h
    have hd := ((Item.Made.vertex hn).condition c).bounds b |>.detached
    have hy : y = Item.bare [v.name] (.vertex false []) := by
      rw [Item.newVertex] at hn
      cases hname : Item.checkName v.name with
      | error e => rw [hname] at hn; cases hn
      | ok u =>
        rw [hname] at hn
        exact (Except.ok.inj hn).symm
    subst hy
    exact ⟨⟨⟨v.name,rfl⟩,(fun h => by cases h),rfl⟩,hd,rfl⟩

theorem EdgeEntry.item_ok {e : EdgeEntry} {x : Item} (h : e.item = .ok x) :
    x.Written ∧ x.Detached ∧ ∃ ends, x.ends? = some ends := by
  rw [EdgeEntry.item] at h
  cases hn : Item.newEdge e.name e.source e.target e.directed with
  | error err => rw [hn] at h; cases h
  | ok y =>
    rw [hn,ok_bind] at h
    obtain ⟨c,b,rfl⟩ := Item.checkedWith_ok h
    have hd := ((Item.Made.edge hn).condition c).bounds b |>.detached
    have hy : y = Item.bare [e.name] (.edge ⟨none,none,e.source,e.target,e.directed⟩) := by
      rw [Item.newEdge] at hn
      cases hname : Item.checkName e.name with
      | error err => rw [hname] at hn; cases hn
      | ok u =>
        rw [hname,ok_bind] at hn
        split at hn
        · cases hn
        · exact (Except.ok.inj hn).symm
    subst hy
    exact ⟨⟨⟨e.name,rfl⟩,(fun h => by cases h),rfl⟩,hd,_,rfl⟩

/-- An operand is found equal to itself. -/
def Operand.Comparable (o : Operand) : Prop := o.sameOperand o = true

/-- Both operands of a constraint are found equal to themselves. -/
structure ConstraintEntry.Comparable (c : ConstraintEntry) : Prop where
  /-- The left operand is. -/
  left : c.left.Comparable
  /-- The right operand is. -/
  right : c.right.Comparable

/-- A constraint has the operands of its entry, and one of them is an item. -/
theorem ConstraintEntry.constraint_ok {c : ConstraintEntry} {k : Constraint}
    (h : c.constraint = .ok k) : k.left = c.left ∧ k.right = c.right ∧
      ¬(c.left.isLiteral = true ∧ c.right.isLiteral = true) := by
  rw [ConstraintEntry.constraint] at h
  cases hr : Constraint.ofOperands c.operator c.left c.right with
  | error e => rw [hr] at h; cases h
  | ok r =>
    obtain ⟨hrel,hitem⟩ : r = ⟨c.operator,c.left,c.right,none,none,false⟩ ∧
        ¬(c.left.isLiteral = true ∧ c.right.isLiteral = true) := by
      rw [Constraint.ofOperands] at hr
      split at hr
      · cases hr
      · split at hr
        · cases hr
        · split at hr
          · cases hr
          · rename_i hb
            exact ⟨(Except.ok.inj hr).symm,fun hn => hb (Bool.and_eq_true_iff.mpr hn)⟩
    rw [hr,ok_bind] at h
    split at h
    · rename_i item bounds _ _
      cases hb : bounds.checked with
      | error e => rw [hb] at h; cases h
      | ok b =>
        rw [hb,ok_bind,Constraint.annotate] at h
        split at h
        · cases h
          rw [hrel]
          exact ⟨rfl,rfl,hitem⟩
        · cases h
    · cases h
      rw [hrel]
      exact ⟨rfl,rfl,hitem⟩

/-- A constraint is found again if its operands are equal to themselves. -/
theorem ConstraintEntry.Comparable.proper {c : ConstraintEntry} (hc : c.Comparable) {k : Constraint}
    (h : c.constraint = .ok k) : k.Proper := by
  obtain ⟨hl,hr,hitem⟩ := ConstraintEntry.constraint_ok h
  refine ⟨?_,by rw [hl,hr]; exact hitem⟩
  simp only [Constraint.sameRelation,hl,hr,Bool.and_eq_true,decide_eq_true_eq]
  exact ⟨⟨trivial,hc.left⟩,hc.right⟩

/-! ## Loops -/

/-- The members of subqueries and of those inside them. -/
def SubqueryEntry.allMembers : List SubqueryEntry → List Members
  | [] => []
  | .mk _ members nested :: entries => members :: allMembers nested ++ allMembers entries

namespace Description

/-- The members of all containers. -/
def allMembers (d : Description) : List Members :=
  d.members :: SubqueryEntry.allMembers d.subqueries

/-- Every constant that a constraint compares with is equal to itself. -/
def Comparable (d : Description) : Prop :=
  ∀ members ∈ d.allMembers, ∀ c ∈ members.constraints, c.Comparable

/-- What building keeps true: the query is written, and its constraints have a property. -/
def Sound (P : Constraint → Prop) (q : Query) : Prop := q.Written ∧ q.Constrained P

/-- The constraints that some entries stand for have a property, be they about edges or not. -/
def Yields (P : Constraint → Prop) (entries : List ConstraintEntry) : Prop :=
  ∀ c ∈ entries, ∀ k onEdges, c.constraint = .ok k → P { k with onEdges := onEdges }

variable {P : Constraint → Prop}

theorem keeps_addVertices (c : ContainerId) (members : Members) :
    Keeps (Sound P) (fun _ => True) (addVertices c members) := by
  refine .forM fun entry _ => ?_
  refine (Keeps.lift (Q:=fun x => entry.item = .ok x) fun _ h => h).bind fun x hx => ?_
  obtain ⟨hw,hd,hv⟩ := VertexEntry.item_ok hx
  refine Keeps.bind (Q:=fun _ => True) (fun q i q' hq hok => ⟨?_,trivial⟩) fun _ _ => .pure trivial
  obtain ⟨C,hedges,howner,hC,hf⟩ := not_refused (Query.addVertex_cases q c x) hok
  rw [Query.addVertex_ok hedges howner hC hf] at hok
  cases hok
  refine ⟨hq.1.withVertex hw hedges hd.named hC hf,?_⟩
  have hpush : (q.pushItem { x with container := some c }).Constrained P :=
    hq.2.of_constraints fun hC hk => .inr ⟨_,_,hC,hk⟩
  exact hpush.mapContainer fun _ _ hk => .inr hk

theorem keeps_addEdges (c : ContainerId) (members : Members) :
    Keeps (Sound P) (fun _ => True) (addEdges c members) := by
  refine .forM fun entry _ => ?_
  refine (Keeps.lift (Q:=fun x => entry.item = .ok x) fun _ h => h).bind fun x hx => ?_
  obtain ⟨hw,hd,-⟩ := EdgeEntry.item_ok hx
  refine Keeps.bind (Q:=fun _ => True) (fun q i q' hq hok => ⟨?_,trivial⟩) fun _ _ => .pure trivial
  obtain ⟨ends,C,hends,howner,hC,hf⟩ := not_refused (Query.addEdge_cases q c x) hok
  rw [Query.addEdge_ok hends howner hC hf] at hok
  cases hok
  refine ⟨hq.1.withEdge hw hends hd.named hC hf,?_⟩
  refine Query.Constrained.mapContainer (hq.2.of_constraints fun {a D k} hC hk =>
    .inr ⟨a,D,?_,hk⟩) fun _ _ hk => .inr hk
  rwa [(Query.rewired_mapEndVertices _ (Item.sameButIncidence_attach _) _).container?,
    Query.container?_pushItem] at hC

theorem Sound.mapContainer {q : Query} (hq : Sound P q) {c : ContainerId} {f : Container → Container}
    (hf : ∀ C, (f C).members = C.members ∧ (f C).parent? = C.parent? ∧
      (f C).subqueries = C.subqueries)
    (hk : ∀ C k, k ∈ (f C).constraints → P k ∨ k ∈ C.constraints) :
    Sound P (q.mapContainer c f) :=
  ⟨hq.1.of_same (hq.1.wellFormed.mapContainer fun C _ => hf C) fun _ => rfl,
    hq.2.mapContainer hk⟩

/-- Declarations change the containers alone, and bring in constraints as they are noted. -/
theorem keeps_declarations {I : Query → Prop} (c : ContainerId) {members : Members}
    (hI : ∀ {q : Query} {f : Container → Container}, I q →
      (∀ C, (f C).members = C.members ∧ (f C).parent? = C.parent? ∧
        (f C).subqueries = C.subqueries) →
      (∀ C l, l ∈ (f C).constraints → (∃ entry ∈ members.constraints, ∃ k,
        entry.constraint = .ok k ∧ l = q.noted k) ∨ l ∈ C.constraints) →
      I (q.mapContainer c f)) : Keeps I (fun _ => True) (addDeclarations c members) := by
  refine Keeps.bind (Q:=fun _ => True) (.forM fun entry he => ?_) fun _ _ =>
    Keeps.bind (Q:=fun _ => True) (.forM fun entry _ => ?_) fun _ _ => .forM fun entry _ => ?_
  · refine (Keeps.lift (Q:=fun k => entry.constraint = .ok k) fun _ h => h).bind fun k hk => ?_
    refine fun q u q' hq hok => ⟨?_,trivial⟩
    obtain ⟨C,hC⟩ := not_refused (Query.addConstraint_cases q c k) hok
    rw [Query.addConstraint_ok hC] at hok
    cases hok
    refine hI hq (fun _ => ⟨rfl,rfl,rfl⟩) fun C l hl => ?_
    rcases List.mem_append.mp hl with hl|hl
    · exact .inr hl
    · exact .inl ⟨entry,he,k,hk,List.mem_singleton.mp hl⟩
  · refine (Keeps.lift (Q:=fun _ => True) fun _ _ => trivial).bind fun l _ => ?_
    refine fun q u q' hq hok => ⟨?_,trivial⟩
    obtain ⟨C,hC⟩ := not_refused (Query.addDerivedLink_cases q c l) hok
    rw [Query.addDerivedLink_ok hC] at hok
    cases hok
    exact hI hq (fun _ => ⟨rfl,rfl,rfl⟩) fun _ _ hk => .inr hk
  · refine fun q u q' hq hok => ⟨?_,trivial⟩
    obtain ⟨C,hi,hC,hn⟩ := not_refused (Query.addCachedItem_cases q c entry.item entry.container) hok
    rw [Query.addCachedItem_ok hi hC hn] at hok
    cases hok
    exact hI hq (fun _ => ⟨rfl,rfl,rfl⟩) fun _ _ hk => .inr hk

theorem keeps_addDeclarations (c : ContainerId) {members : Members}
    (hm : Yields P members.constraints) :
    Keeps (Sound P) (fun _ => True) (addDeclarations c members) := by
  refine keeps_declarations c fun hq hf hk => hq.mapContainer hf fun C l hl =>
    (hk C l hl).imp_left ?_
  rintro ⟨entry,he,k,hok,rfl⟩
  exact hm entry he k _ hok

theorem keeps_addSubquery (p : ContainerId) (bounds : Option Annotation) :
    Keeps (Sound P) (fun _ => True) (Query.addSubquery p bounds) := by
  refine fun q s q' hq hok => ⟨?_,trivial⟩
  obtain ⟨P,hP⟩ := not_refused (Query.addSubquery_cases q p bounds) hok
  rw [Query.addSubquery_ok hP] at hok
  cases hok
  refine ⟨hq.1.of_same (hq.1.wellFormed.withSubquery hP bounds) fun _ => rfl,?_⟩
  refine Query.Constrained.mapContainer (hq.2.of_constraints fun {c C k} hC hk => ?_)
    fun _ _ hk => .inr hk
  rw [Query.container?_pushContainer] at hC
  split at hC
  · cases hC
    cases hk
  · exact .inr ⟨c,C,hC,hk⟩

theorem keeps_addSubqueries (entries : List SubqueryEntry) : ∀ (parent : ContainerId),
    Keeps (Sound P) (fun added => ∀ e ∈ added, e.2 ∈ SubqueryEntry.allMembers entries)
      (addSubqueries parent entries) := by
  intro parent
  induction parent, entries using addSubqueries.induct with
  | case1 parent =>
    rw [addSubqueries]
    exact .pure fun _ he => absurd he List.not_mem_nil
  | case2 parent bounds members nested entries ihn ihe =>
    rw [addSubqueries]
    refine (Keeps.lift (Q:=fun _ => True) fun _ _ => trivial).bind fun checked _ => ?_
    refine (keeps_addSubquery parent checked).bind fun subquery _ => ?_
    refine (keeps_addVertices subquery members).bind fun _ _ => ?_
    refine (ihn subquery).bind fun inner hinner => ?_
    refine ihe.bind fun others hothers => .pure fun e he => ?_
    rw [SubqueryEntry.allMembers]
    simp only [List.cons_append,List.mem_cons,List.mem_append] at he ⊢
    rcases he with rfl|he|he
    · exact .inl rfl
    · exact .inr (.inl (hinner e he))
    · exact .inr (.inr (hothers e he))

theorem keeps_addAll {d : Description} (hd : ∀ members ∈ d.allMembers, Yields P members.constraints) :
    Keeps (Sound P) (fun _ => True) d.addAll := by
  refine (keeps_addVertices .root d.members).bind fun _ _ => ?_
  refine (keeps_addSubqueries d.subqueries .root).bind fun added hadded => ?_
  refine Keeps.bind (Q:=fun _ => True) (.forM fun e _ => keeps_addEdges e.1 e.2) fun _ _ =>
    .forM fun e he => keeps_addDeclarations e.1 (hd e.2 ?_)
  rcases List.mem_cons.mp he with rfl|he
  · exact List.mem_cons_self
  · exact List.mem_cons_of_mem _ (hadded e he)

/-- Building from a description without subqueries. -/
theorem addAll_flat {d : Description} (h : d.subqueries = []) : d.addAll = (do
      addVertices .root d.members
      addEdges .root d.members
      addDeclarations .root d.members) := by
  simp [addAll,h,addSubqueries]

/-- What is built is sound, if the constraints are of which the description speaks. -/
theorem sound_build {d : Description} (hd : ∀ members ∈ d.allMembers, Yields P members.constraints)
    {q : Query} (hq : d.build = .ok q) : Sound P q := by
  rw [build] at hq
  split at hq
  · rename_i u q' hrun
    cases hq
    refine (keeps_addAll hd _ _ _ ⟨Query.written_bare d.name d.description,?_⟩ hrun).1
    intro c C k hC hk
    rw [(Query.container?_bare hC).2] at hk
    cases hk
  · cases hq

/-- What is built is written by a user, and one operand of every constraint is an item. -/
theorem itemed_build {d : Description} {q : Query} (hq : d.build = .ok q) : q.Written ∧
    q.Constrained fun k => ¬(k.left.isLiteral = true ∧ k.right.isLiteral = true) := by
  refine sound_build (fun _ _ _ _ k _ hk => ?_) hq
  obtain ⟨hl,hr,hitem⟩ := ConstraintEntry.constraint_ok hk
  rwa [hl,hr]

/-- What is built is written by a user. -/
theorem written_build {d : Description} {q : Query} (hq : d.build = .ok q) : q.Written :=
  (itemed_build hq).1

/-- What is built is written by a user, and its constraints are found again. -/
theorem build_sound {d : Description} (hd : d.Comparable) {q : Query} (hq : d.build = .ok q) :
    q.Written ∧ q.Comparable :=
  sound_build (fun members hm c hc _ _ hk =>
    ⟨((hd members hm c hc).proper hk).again,((hd members hm c hc).proper hk).item⟩) hq

end Description

end GraphPattern
