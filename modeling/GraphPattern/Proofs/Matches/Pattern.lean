import GraphPattern.Proofs.Matches.Constraint
import GraphPattern.Proofs.Rule.Lineal

/-!
# What a match of a part of a query is

A binding fits some items of a query if it holds an object for every vertex without annotation, the
links for every edge between such vertices, and for an edge at which something annotated hangs
everything there that enough links join. An annotated subquery hangs on the rest with all that fits
it by itself. Whether a binding fits depends on what it binds to the items and to the ends of edges
alone, so bindings that fit parts of a query fit together.
-/

namespace GraphPattern

namespace Binding

variable {b c : Binding} {N M : Set String} {kind : SourceKind} {n : String}

/-- Both bind the same to the names. -/
def Agrees (b c : Binding) (N : Set String) : Prop := ∀ kind, ∀ n ∈ N, b kind n = c kind n

/-- What is bound to the names. -/
def on (b : Binding) (N : Set String) : Binding := fun kind n => {i | n ∈ N ∧ i ∈ b kind n}

theorem Agrees.symm (h : b.Agrees c N) : c.Agrees b N := fun kind n hn => (h kind n hn).symm

theorem Agrees.mono (h : b.Agrees c N) (hM : M ⊆ N) : b.Agrees c M := fun kind n hn => h kind n (hM hn)

theorem on_apply (hn : n ∈ N) : b.on N kind n = b kind n := by
  ext i
  exact ⟨And.right,fun hi => ⟨hn,hi⟩⟩

theorem on_agrees (b : Binding) (N : Set String) : (b.on N).Agrees b N := fun _ _ hn => on_apply hn

theorem on_of_not_mem (hn : n ∉ N) : b.on N kind n = ∅ := by
  ext i
  exact ⟨fun hi => hn hi.1,fun hi => hi.elim⟩

theorem within_on (b : Binding) (N : Set String) : (b.on N).Within N := fun _ _ ⟨_,hn,_⟩ => hn

theorem of_ne {S : Set Int} {m : String} {k : SourceKind} (h : n ≠ m) : of k m S kind n = ∅ := by
  ext i
  exact ⟨fun hi => h hi.1.2,fun hi => hi.elim⟩

end Binding

namespace Store

variable {s : Store} {y : Item} {ends : EdgeEnds} {t : Bool} {b c d : Binding}

theorem linksAcross_congr (h : b .object (ends.nameAt (!t)) = c .object (ends.nameAt (!t))) :
    s.linksAcross y ends (!t) b d = s.linksAcross y ends (!t) c d := by
  cases t with
  | true =>
    change b .object ends.targetName = c .object ends.targetName at h
    simp only [linksAcross,Bool.not_true,Bool.false_eq_true,if_false,h]
  | false =>
    change b .object ends.sourceName = c .object ends.sourceName at h
    simp only [linksAcross,Bool.not_false,if_true,h]

theorem linksOf_congr (h : ∀ t, b .object (ends.nameAt t) = c .object (ends.nameAt t)) :
    s.linksOf y ends b = s.linksOf y ends c := by
  have hs : b .object ends.sourceName = c .object ends.sourceName := h true
  have ht : b .object ends.targetName = c .object ends.targetName := h false
  rw [linksOf,linksOf,hs,ht]

/-- The bindings that hang at an end of an edge and that enough links join to a binding. -/
def hanging (s : Store) (y : Item) (ends : EdgeEnds) (t : Bool) (B : Set Binding) (b : Binding) :
    Set Binding := {d | d ∈ B ∧ y.Permits (s.linksAcross y ends (!t) b d)}

/-- They and the links to them, together. -/
def gathered (s : Store) (y : Item) (ends : EdgeEnds) (t : Bool) (B : Set Binding) (b : Binding) :
    Binding := .gather (s.hanging y ends t B b) fun d =>
      d ⊔ .of .link y.joinedName (s.linksAcross y ends (!t) b d)

/-- The links that match an edge between one object at an end of it and what a binding holds under the
name of the other end. -/
def linksTo (s : Store) (y : Item) (ends : EdgeEnds) (t : Bool) (b : Binding) (o : Int) : Set Int :=
  s.linksBetween y.condition ends.directed (if t then {o} else b .object ends.sourceName)
    (if t then b .object ends.targetName else {o})

/-- The objects that satisfy a condition and that as many links as the edge allows join to a
binding. -/
def instancesAt (s : Store) (y : Item) (ends : EdgeEnds) (t : Bool) (condition : Option Condition)
    (b : Binding) : Set Int := {o | o ∈ s.having condition ∧ y.Permits (s.linksTo y ends t b o)}

section Objects

variable {condition : Option Condition} {n : String} (hn : ends.nameAt t = n)

include hn

theorem linksAcross_object (o : Int) :
    s.linksAcross y ends (!t) b (.of .object n {o}) = s.linksTo y ends t b o := by
  subst hn
  cases t with
  | true =>
    simp only [linksAcross,linksTo,Bool.not_true,Bool.false_eq_true,if_false,if_true]
    exact congrArg (s.linksBetween _ _ · _) (Binding.of_self {o})
  | false =>
    simp only [linksAcross,linksTo,Bool.not_false,Bool.false_eq_true,if_false,if_true]
    exact congrArg (s.linksBetween _ _ _) (Binding.of_self {o})

/-- Of the objects that satisfy a condition those hang at the edge to which enough links lead. -/
theorem hanging_objects :
    s.hanging y ends t {c | ∃ o ∈ s.having condition, c = .of .object n {o}} b =
      (fun o => Binding.of .object n {o}) '' s.instancesAt y ends t condition b := by
  ext d
  constructor
  · rintro ⟨⟨o,ho,rfl⟩,hp⟩
    exact ⟨o,⟨ho,linksAcross_object hn o ▸ hp⟩,rfl⟩
  · rintro ⟨o,⟨ho,hp⟩,rfl⟩
    exact ⟨⟨o,ho,rfl⟩,(linksAcross_object hn o).symm ▸ hp⟩

theorem ncard_hanging_objects :
    (s.hanging y ends t {c | ∃ o ∈ s.having condition, c = .of .object n {o}} b).ncard =
      (s.instancesAt y ends t condition b).ncard := by
  rw [hanging_objects hn,Set.ncard_image_of_injective _ Binding.of_singleton_injective]

/-- They and the links to them, together. -/
theorem gathered_objects :
    s.gathered y ends t {c | ∃ o ∈ s.having condition, c = .of .object n {o}} b =
      .of .object n (s.instancesAt y ends t condition b) ⊔ .of .link y.joinedName
        {l | ∃ o ∈ s.instancesAt y ends t condition b, l ∈ s.linksTo y ends t b o} := by
  have hself : {i | ∃ o ∈ s.instancesAt y ends t condition b, i ∈ ({o} : Set Int)} =
      s.instancesAt y ends t condition b := Set.ext fun i =>
    ⟨fun ⟨_,ho,hi⟩ => (Set.mem_singleton_iff.mp hi).symm ▸ ho,fun hi => ⟨i,hi,rfl⟩⟩
  have hinj : Function.Injective fun o : Int => Binding.of .object n {o} :=
    Binding.of_singleton_injective
  have hbij := hinj.injOn.bijOn_image (s:=s.instancesAt y ends t condition b)
  rw [gathered,hanging_objects hn,← Binding.gather_of_bijOn hbij,Binding.gather_sup,
    Binding.gather_of,hself]
  simp only [linksAcross_object hn,Binding.gather_of]

end Objects

theorem hanging_congr {B : Set Binding}
    (h : b .object (ends.nameAt (!t)) = c .object (ends.nameAt (!t))) :
    s.hanging y ends t B b = s.hanging y ends t B c := by
  ext d
  change d ∈ B ∧ y.Permits _ ↔ d ∈ B ∧ y.Permits _
  rw [linksAcross_congr h]

theorem gathered_congr {B : Set Binding}
    (h : b .object (ends.nameAt (!t)) = c .object (ends.nameAt (!t))) :
    s.gathered y ends t B b = s.gathered y ends t B c := by
  rw [gathered,gathered,hanging_congr h]
  exact congrArg _ (funext fun d => by rw [linksAcross_congr h])

end Store

/-- The constraint is satisfied by bindings that agree on its items alike. -/
theorem Constraint.HoldsIn.congr {k : Constraint} {s : Store} {b c : Binding} (h : k.HoldsIn s b)
    (hbc : b.Agrees c {n | n ∈ k.itemNames}) : k.HoldsIn s c := by
  have hvalues : ∀ {o : Operand}, (∀ n, o.itemName? = some n → n ∈ k.itemNames) →
      s.valuesIn k.kind b o = s.valuesIn k.kind c o := fun {o} ho => by
    cases o with
    | literal value => rfl
    | item name attr => cases attr <;> simp only [Store.valuesIn,hbc k.kind name (ho name rfl)]
  obtain ⟨operator,ho,v,hv,w,hw,hvw⟩ := h
  rw [hvalues fun n hn => by simp [itemNames,hn]] at hv
  rw [hvalues fun n hn => by simp [itemNames,hn]] at hw
  exact ⟨operator,ho,v,hv,w,hw,hvw⟩

namespace Query

variable {q : Query} {s : Store} {G G' : ContainerId → Set Binding} {owed : Option String}
  {D D' : Set Constraint} {N M : Set String} {b c : Binding} {i : ItemId}

/-- The bindings of what hangs at an end of an edge, when those of subqueries are given. -/
def Limb.bindings (q : Query) (s : Store) (G : ContainerId → Set Binding) : Limb → Set Binding
  | vertex u => {d | ∃ x, q.item? u = some x ∧ ∃ o ∈ s.having x.condition,
      d = .of .object x.joinedName {o}}
  | subquery c => G c

/-- A binding holds what hangs at an end of an edge. -/
structure Gathers (s : Store) (y : Item) (ends : EdgeEnds) (t : Bool) (a : Annotation)
    (M : Set String) (B : Set Binding) (owed : Option String) (b : Binding) : Prop where
  /-- There is enough of it. -/
  enough : a.min.getD 0 ≤ (s.hanging y ends t B b).ncard
  /-- It has no more than some objects under the name of the end, if that has been seen to. -/
  few : owed ≠ some (ends.nameAt t) → ∀ max, a.max = some max →
    (b .object (ends.nameAt t)).ncard ≤ max
  /-- Nothing else is held. -/
  held : b.Agrees (s.gathered y ends t B b) (M ∪ {y.joinedName})

/-- A binding is one that an item admits. -/
structure Meets (q : Query) (s : Store) (G : ContainerId → Set Binding) (owed : Option String)
    (i : ItemId) (b : Binding) : Prop where
  /-- A vertex without annotation holds an object that satisfies its condition. -/
  vertex : ∀ x, q.item? i = some x → x.isVertex = true → x.bounds = none →
    ∃ o ∈ s.having x.condition, b.Agrees (.of .object x.joinedName {o}) {x.joinedName}
  /-- An edge at which nothing annotated hangs holds the links, as many as it allows. -/
  edge : ∀ y ends, q.item? i = some y → y.ends? = some ends → (∀ t l, ¬q.Leads i t l) →
    b.Agrees (.of .link y.joinedName (s.linksOf y ends b)) {y.joinedName} ∧
      y.Permits (s.linksOf y ends b)
  /-- An edge at which something annotated hangs holds that. -/
  limb : ∀ y ends t l a, q.item? i = some y → y.ends? = some ends → q.Leads i t l →
    l.bounds q = some a → Gathers s y ends t a (l.names q) (l.bindings q s G) owed b

/-- The constraint is about an annotated subquery out of which the names reach. -/
def Conceals (q : Query) (N : Set String) (k : Constraint) : Prop :=
  ∃ c, q.subqueryBounds c ≠ none ∧ q.Beyond N c ∧
    ∀ n ∈ k.itemNames, n ∈ (Limb.subquery c).names q

/-- A binding fits the items with some names. Items and constraints of annotated subqueries do not
count when the names reach out of the subquery. -/
structure Fits (q : Query) (s : Store) (G : ContainerId → Set Binding) (owed : Option String)
    (D : Set Constraint) (N : Set String) (b : Binding) : Prop where
  /-- Nothing is bound to other names. -/
  within : b.Within N
  /-- The items admit it. -/
  item : ∀ i, q.Among N i → ¬q.Hidden N i → q.Meets s G owed i b
  /-- The constraints are satisfied. -/
  constraint : ∀ k ∈ D, (∀ n ∈ k.itemNames, n ∈ N) → ¬q.Conceals N k → k.HoldsIn s b

/-- The names on which it depends whether an item admits a binding. -/
def needs (q : Query) (i : ItemId) : Set String :=
  {n | n ∈ q.itemNames i ∨ (∃ t v, q.Ends i t v ∧ n ∈ q.itemNames v) ∨
    ∃ t l, q.Leads i t l ∧ n ∈ l.names q}

/-- The names are all that their items depend on. -/
def Sealed (q : Query) (N : Set String) : Prop := ∀ i, q.Among N i → ¬q.Hidden N i → q.needs i ⊆ N

theorem Written.joinedName_eq (h : q.Written) {x : Item} (hx : q.item? i = some x) :
    x.names = [x.joinedName] := by
  obtain ⟨n,hn⟩ := (h.item hx).single
  rw [Item.joinedName,hn,String.intercalate_singleton]

theorem Written.mem_itemNames (h : q.Written) {x : Item} (hx : q.item? i = some x) {n : String} :
    n ∈ q.itemNames i ↔ n = x.joinedName := by
  rw [itemNames_of_some hx,h.joinedName_eq hx,List.mem_singleton]

/-- What hangs at the end of an edge has the name that is written for the end. -/
theorem Leads.nameAt_mem (h : q.Reducible) {e : ItemId} {t : Bool} {l : Limb} (hl : q.Leads e t l)
    {y : Item} {ends : EdgeEnds} (hy : q.item? e = some y) (he : y.ends? = some ends) :
    ends.nameAt t ∈ l.names q := by
  cases hl with
  | vertex hv _ _ => exact ⟨_,⟨rfl,hv.isVertex h.wellFormed⟩,h.nameAt hy he hv⟩
  | subquery hx _ =>
    obtain ⟨v,u,hv,-,hvc,-⟩ := hx
    exact ⟨v,.inl ⟨hv.isVertex h.wellFormed,hvc⟩,h.nameAt hy he hv⟩

section Written

variable (h : q.Written) (hclosed : q.Closed)

include h

theorem Written.joinedName_needs {x : Item} (hx : q.item? i = some x) : x.joinedName ∈ q.needs i :=
  .inl ((h.mem_itemNames hx).mpr rfl)

include hclosed

theorem Written.nameAt_needs {y : Item} {ends : EdgeEnds} (hy : q.item? i = some y)
    (he : y.ends? = some ends) (t : Bool) : ends.nameAt t ∈ q.needs i := by
  obtain ⟨v,hv⟩ := hclosed (isEdge_iff.mpr ⟨y,ends,hy,he⟩) t
  exact .inr (.inl ⟨t,v,hv,h.reducible.nameAt hy he hv⟩)

/-- Whether an item admits a binding depends on nothing else. -/
theorem Meets.congr (hb : q.Meets s G owed i b) (hbc : b.Agrees c (q.needs i)) :
    q.Meets s G owed i c where
  vertex x hx hv hbounds := by
    obtain ⟨o,ho,hag⟩ := hb.vertex x hx hv hbounds
    refine ⟨o,ho,fun kind n hn => (hbc kind n ?_).symm.trans (hag kind n hn)⟩
    rw [Set.mem_singleton_iff.mp hn]
    exact h.joinedName_needs hx
  edge y ends hy he hcore := by
    obtain ⟨hag,hp⟩ := hb.edge y ends hy he hcore
    rw [Store.linksOf_congr fun t => hbc .object _ (h.nameAt_needs hclosed hy he t)] at hag hp
    refine ⟨fun kind n hn => (hbc kind n ?_).symm.trans (hag kind n hn),hp⟩
    rw [Set.mem_singleton_iff.mp hn]
    exact h.joinedName_needs hy
  limb y ends t l a hy he hl ha := by
    have hg := hb.limb y ends t l a hy he hl ha
    have hnear := hbc .object _ (h.nameAt_needs hclosed hy he (!t))
    have hfar := hbc .object _ (h.nameAt_needs hclosed hy he t)
    refine ⟨Store.hanging_congr hnear ▸ hg.enough,hfar ▸ hg.few,fun kind n hn => ?_⟩
    rw [← Store.gathered_congr hnear,← hg.held kind n hn]
    refine (hbc kind n ?_).symm
    rcases hn with hn|hn
    · exact .inr (.inr ⟨t,l,hl,hn⟩)
    · rw [Set.mem_singleton_iff.mp hn]
      exact h.joinedName_needs hy

/-- A binding that fits some items fits fewer of them. -/
theorem Fits.restrict (hb : q.Fits s G owed D N b) (hM : M ⊆ N) (hsealed : q.Sealed M)
    (hbeyond : ∀ c, q.subqueryBounds c ≠ none → q.Beyond N c → q.Beyond M c) :
    q.Fits s G owed D M (b.on M) where
  within := b.within_on M
  item i hi hhid := by
    refine (hb.item i (hi.mono hM) fun ⟨c,hc,hic,hN⟩ => hhid ⟨c,hc,hic,hbeyond c hc hN⟩).congr h
      hclosed ?_
    exact ((b.on_agrees M).mono (hsealed i hi hhid)).symm
  constraint k hk hkM hcon := by
    refine (hb.constraint k hk (fun n hn => hM (hkM n hn)) fun ⟨c,hc,hN,hkc⟩ =>
      hcon ⟨c,hc,hbeyond c hc hN,hkc⟩).congr ?_
    exact ((b.on_agrees M).mono hkM).symm

/-- The items that a binding fits admit every binding that agrees with it there. -/
theorem Fits.meets (hc : q.Fits s G owed D M c) (hsealed : q.Sealed M) (hM : M ⊆ N)
    (hag : c.Agrees b M) (hi : q.Among M i) (hhid : ¬q.Hidden N i) : q.Meets s G owed i b := by
  have hhid' : ¬q.Hidden M i := fun ⟨d,hd,hid,hbeyond⟩ => hhid ⟨d,hd,hid,hbeyond.mono hM⟩
  exact (hc.item i hi hhid').congr h hclosed (hag.mono (hsealed i hi hhid'))

end Written

end Query

end GraphPattern
