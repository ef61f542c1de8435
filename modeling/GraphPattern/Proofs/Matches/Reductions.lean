import GraphPattern.Proofs.Execution.Replay
import GraphPattern.Proofs.Matches.Fitting
import GraphPattern.Proofs.Matches.Gather
import GraphPattern.Proofs.Matches.Pairs
import GraphPattern.Proofs.Matches.Vertex

/-!
# What reductions make of matches

Every composite vertex of a query stands for the items of the first query that are in its place. If
the matches of the vertices that take part in a reduction present the bindings that fit these items,
then the matches of the vertex that comes out do so as well.
-/

namespace GraphPattern

open Matches Rule

namespace Item.Resembles

variable {y y₀ : Item} {ends ends₀ : EdgeEnds} {s : Store}

theorem permits (h : y.Resembles y₀) (L : Set Int) : y.Permits L ↔ y₀.Permits L := by
  rw [Item.Permits,Item.Permits,h.bounds]

/-- Edges that resemble each other match the same links. -/
theorem linksBetween (h : y.Resembles y₀) (hw : ends.written = ends₀.written) (A B : Set Int) :
    s.linksBetween y.condition ends.directed A B =
      s.linksBetween y₀.condition ends₀.directed A B := by
  rw [h.condition,EdgeEnds.directed_of_written hw]

theorem linksAcross (h : y.Resembles y₀) (hw : ends.written = ends₀.written) (t : Bool)
    (c d : Binding) : s.linksAcross y ends t c d = s.linksAcross y₀ ends₀ t c d := by
  rw [Store.linksAcross,h.linksBetween hw,
    show ends.sourceName = ends₀.sourceName from EdgeEnds.nameAt_of_written hw true,
    show ends.targetName = ends₀.targetName from EdgeEnds.nameAt_of_written hw false]
  rfl

theorem linksOf (h : y.Resembles y₀) (hw : ends.written = ends₀.written) (c : Binding) :
    s.linksOf y ends c = s.linksOf y₀ ends₀ c := by
  rw [Store.linksOf,h.linksBetween hw,
    show ends.sourceName = ends₀.sourceName from EdgeEnds.nameAt_of_written hw true,
    show ends.targetName = ends₀.targetName from EdgeEnds.nameAt_of_written hw false]
  rfl

end Item.Resembles

namespace Query

variable {q₀ q q' : Query} {f : ItemId → ItemId} {e v u out : ItemId} {t : Bool} {c : ContainerId}
  {rule : Rule} {a : Application} {s : Store} {D : Set Constraint} {N : Set String}
  {x y z : Item} {ends : EdgeEnds} {X Z : Rows × Rows}

/-- All constraints that are declared. -/
def allDeclared (q : Query) : Set Constraint := {k | ∃ c, k ∈ q.declared c}

/-- What fits the items and the constraints of a subquery by itself. -/
def enclosed (q : Query) (s : Store) (c : ContainerId) : Set Binding :=
  {b | q.Fits s (fun _ => ∅) none q.allDeclared ((Limb.subquery c).names q) b}

/-- What fits the items with some names and some constraints, when an upper bound may be owed. -/
def fitting (q : Query) (s : Store) (D : Set Constraint) (owed : Option String) (N : Set String) :
    Set Binding := {b | q.Fits s (q.enclosed s) owed D N b}

/-- A composite vertex has the names of all items of the constraint. -/
def Covers (q : Query) (k : Constraint) : Prop :=
  ∃ v x, q.item? v = some x ∧ x.kind = .composite ∧ ∀ n ∈ k.itemNames, n ∈ x.names

/-- The constraints that have been processed on the way from the first query to the second one. -/
structure Accounts (q₀ q : Query) (D : Set Constraint) : Prop where
  /-- They were declared. -/
  declared : ∀ k ∈ D, k ∈ q₀.allDeclared
  /-- What they are about is in one place. -/
  covered : ∀ k ∈ D, q.Covers k
  /-- Every other one is declared, up to what states the same. -/
  settled : ∀ k ∈ q₀.allDeclared, (∃ l ∈ q.allDeclared, l.Alike k) ∨ ∃ l ∈ D, l.Alike k

/-- A query to which there is one answer. -/
structure Definite (q : Query) : Prop where
  /-- It is as a user can write it. -/
  written : q.Written
  /-- Its edges and its subqueries are where they have to be. -/
  regular : q.Regular
  /-- It can be solved as far as its structure goes. -/
  orderly : q.Orderly
  /-- It can be solved as far as its constraints go. -/
  settling : q.Settling
  /-- Its reductions can be replayed. -/
  replayable : q.Replayable
  /-- Of constraints that state the same relation, all are about edges or none is. -/
  noted : ∀ {k l}, k ∈ q.allDeclared → l ∈ q.allDeclared → k.sameRelation l = true →
    k.onEdges = l.onEdges
  /-- A constraint about an annotated subquery is declared there. -/
  housed : ∀ {c d k}, q.subqueryBounds c ≠ none → k ∈ q.declared d →
    (∀ n ∈ k.itemNames, n ∈ (Limb.subquery c).names q) → d = c

/-- An operand of a constraint is an item. -/
theorem exists_itemName {k : Constraint} (h : ¬(k.left.isLiteral = true ∧ k.right.isLiteral = true)) :
    ∃ n, n ∈ k.itemNames := by
  cases hl : k.left with
  | item n attr => exact ⟨n,by simp [Constraint.itemNames,hl,Operand.itemName?]⟩
  | literal value =>
    cases hr : k.right with
    | item n attr => exact ⟨n,by simp [Constraint.itemNames,hl,hr,Operand.itemName?]⟩
    | literal value => exact absurd ⟨by rw [hl]; rfl,by rw [hr]; rfl⟩ h

namespace Replayable

variable {k : Constraint} (h : q.Replayable)

include h

theorem decided_of_declared (hk : k ∈ q.allDeclared) : k.Decided := by
  obtain ⟨c,hk⟩ := hk
  obtain ⟨C,hC,hk⟩ := mem_declared.mp hk
  exact h.decided hC hk

/-- A declared constraint is like itself. -/
theorem alike_of_declared (hk : k ∈ q.allDeclared) : k.Alike k := by
  obtain ⟨c,hk⟩ := hk
  obtain ⟨C,hC,hk⟩ := mem_declared.mp hk
  exact ⟨h.plannable.comparable hC hk,rfl⟩

end Replayable

namespace Definite

variable {k : Constraint} (h : q.Definite)

include h

theorem decided (hk : k ∈ q.allDeclared) : k.Decided := h.replayable.decided_of_declared hk

theorem itemed (hk : k ∈ q.allDeclared) : ∃ n, n ∈ k.itemNames := exists_itemName (h.decided hk).item

theorem alike_self (hk : k ∈ q.allDeclared) : k.Alike k := h.replayable.alike_of_declared hk

theorem any_isBinary (hk : k ∈ q.allDeclared) :
    (Comparison.ofKeyword? k.operator).any Comparison.isBinary = true := by
  obtain ⟨operator,ho,hb⟩ := (h.decided hk).binary
  rw [ho]
  exact hb

end Definite

/-- In the place of a vertex there is all that the items there depend on. -/
theorem Descends.sealed (h : q₀.Descends q f) (h₀ : q₀.Regular) (hv : q.IsVertex v) :
    q₀.Sealed {n | n ∈ q.itemNames v} := by
  intro i hi _ n hn
  obtain ⟨hi,-⟩ := (h.among_iff h₀.wellFormed).mp hi
  have hplace : ∀ {j}, f j = v → n ∈ q₀.itemNames j → n ∈ q.itemNames v := fun hj hn =>
    h.names.mpr ⟨_,hj,hn⟩
  rcases hn with hn|⟨t,u,hu,hn⟩|⟨t,l,hl,j,hj,hn⟩
  · exact hplace hi hn
  · exact hplace (h.ends_of_place hv hi hu) hn
  · cases hl with
    | vertex hu _ _ =>
      obtain ⟨rfl,-⟩ := hj
      exact hplace (h.ends_of_place hv hi hu) hn
    | @subquery d hx hb =>
      have hroot : d ≠ .root := fun hr => hb (hr ▸ h₀.wellFormed.subqueryBounds_root)
      exact hplace ((h.crosses_place h₀ hv hi hx hroot).2 hj) hn

/-- Of two vertices at an edge, the one at the first end has the name that is written for it. -/
theorem Reducible.hasName (h : q.Reducible) (hx : q.item? v = some x) (hy : q.item? e = some y)
    (he : y.ends? = some ends) (hnear : q.Ends e t v) (hfar : q.Ends e (!t) u) (hne : v ≠ u) :
    x.hasName ends.sourceName = t := by
  have hnames : x.hasName ends.sourceName = true ↔ ends.sourceName ∈ q.itemNames v := by
    rw [itemNames_of_some hx,Item.hasName,decide_eq_true_iff]
  cases t with
  | true => exact hnames.mpr (h.nameAt hy he hnear)
  | false =>
    refine Bool.eq_false_iff.mpr fun hn => hne ?_
    exact h.wellFormed.eq_of_name (hnames.mp hn) (h.nameAt hy he hfar)

/-- Different items have different names. -/
theorem WellFormed.disjoint_itemNames (h : q.WellFormed) {i j : ItemId} (hij : i ≠ j) :
    Disjoint {n | n ∈ q.itemNames i} {n | n ∈ q.itemNames j} :=
  Set.disjoint_left.mpr fun _ hi hj => hij (h.eq_of_name hi hj)

namespace Lineal

/-- A plain item has one name. -/
theorem itemNames_plain (h : q₀.Lineal q f) (h₀ : q₀.Written) {i : ItemId} (hx : q.item? i = some x)
    (hk : x.kind ≠ .composite) : {n | n ∈ q.itemNames i} = {x.joinedName} := by
  obtain ⟨x₀,hx₀,hsame⟩ := h.plain hx hk
  ext n
  change n ∈ q.itemNames i ↔ n = x.joinedName
  rw [itemNames_of_some hx,hsame.joinedName,hsame.names,h₀.joinedName_eq hx₀,List.mem_singleton]

/-- The name of an edge is not one of a vertex. -/
theorem joinedName_not_mem (h : q₀.Lineal q f) (h₀ : q₀.Written) (hy : q.item? e = some y)
    (he : y.ends? = some ends) (hv : q.IsVertex v) : y.joinedName ∉ q.itemNames v := by
  have hye : y.joinedName ∈ {n | n ∈ q.itemNames e} := by
    rw [h.itemNames_plain h₀ hy (by rw [Item.kind_edge_iff.mpr ⟨ends,he⟩]; decide)]
    rfl
  exact h.wellFormed.not_mem_itemNames (isEdge_iff.mpr ⟨y,ends,hy,he⟩) hv hye

/-- An edge is one of the first query. -/
theorem exists_edge (h : q₀.Lineal q f) (h₀ : q₀.Written) (hy : q.item? e = some y)
    (he : y.ends? = some ends) : ∃ y₀ ends₀, q₀.item? e = some y₀ ∧ y.Resembles y₀ ∧
      y₀.ends? = some ends₀ ∧ ends.written = ends₀.written ∧
        {n | n ∈ q.itemNames e} = {y₀.joinedName} := by
  have hk : y.kind ≠ .composite := by
    rw [Item.kind_edge_iff.mpr ⟨ends,he⟩]
    decide
  obtain ⟨y₀,hy₀,hsame⟩ := h.plain hy hk
  obtain ⟨ends₀,he₀,hwritten⟩ := hsame.exists_ends he
  exact ⟨y₀,ends₀,hy₀,hsame,he₀,hwritten,hsame.joinedName ▸ h.itemNames_plain h₀ hy hk⟩

section Edge

variable (h₀ : q₀.Regular) (ho : q₀.Orderly) (h : q₀.Lineal q f) (hr : Reduction q rule a q' out)
  (he : q.IsEdge e) (hm : e ∈ a.items)

include h hr he hm

/-- A reduction that an edge takes part in leaves containers and owners as they are. -/
theorem level : Level q q' a.items out := by
  rcases hr.level_or_unwrapped h.wellFormed with hl|⟨x,c,p,S,hi,hu⟩
  · exact hl
  · rw [hi,List.mem_singleton] at hm
    have hx := hu.vertex
    rw [← hm] at hx
    have hv : x.isVertex = true := by
      rw [Item.isVertex_iff_kind,hu.settled.kind]
      decide
    exact absurd ⟨x,hx,hv⟩ he.not_isVertex

theorem bare_out : q'.IsBare out := by
  have hc := hr.changes h.wellFormed
  obtain ⟨z,hz,-⟩ := id hc.isVertex_out
  exact ⟨hc.isVertex_out,(itemBounds_of_some hz).trans ((h.level hr he hm).bare hz)⟩

theorem owner_out (hv : q.IsVertex v) (hvm : v ∈ a.items) : q'.itemOwner out = q.itemOwner v := by
  have howner := (h.level hr he hm).itemOwner (hr.changes h.wellFormed) hv
  rwa [ItemId.merged_of_mem hvm] at howner

include h₀ ho

/-- The edge lies in no annotated subquery out of which the names of what comes out reach. -/
theorem not_hidden (hv : q.Ends e t v) (hvm : v ∈ a.items) :
    ¬q₀.Hidden {n | n ∈ q'.itemNames out} e := by
  rintro ⟨c,hc,hin,hbeyond⟩
  have howner := ((h.step h₀ hr).beyond_iff h₀ ho (h.bare_out hr he hm) hc).mp hbeyond
  rw [h.owner_out hr he hm (hv.isVertex h.wellFormed) hvm] at howner
  exact howner (h.owner_of_ends h₀ hv hc hin)

/-- A vertex without annotation that takes part reaches as far as what comes out. -/
theorem beyond (hv : q.IsBare v) (hvm : v ∈ a.items) (hc : q₀.subqueryBounds c ≠ none)
    (hbeyond : q₀.Beyond {n | n ∈ q'.itemNames out} c) : q₀.Beyond {n | n ∈ q.itemNames v} c := by
  have howner := ((h.step h₀ hr).beyond_iff h₀ ho (h.bare_out hr he hm) hc).mp hbeyond
  rw [h.owner_out hr he hm hv.1 hvm] at howner
  exact (h.beyond_iff h₀ ho hv hc).mpr howner

end Edge

/-- Where nothing is annotated at an edge, nothing hung there. -/
theorem not_leads (h : q₀.Lineal q f) (h₀ : q₀.Regular) (ho : q₀.Orderly) (he : q.IsEdge e)
    (ht : ¬q.AnnotatedAt e t) (l : Limb) : ¬q₀.Leads e t l := fun hl =>
  ht ((h.annotatedAt he).mpr ((ho.annotatedAt_iff h₀.closed).mpr ⟨l,hl⟩))

end Lineal

/-- The bindings of what hangs at an end of an edge bind its names. -/
theorem Leads.within {l : Limb} (hl : q.Leads e t l) (hq : q.Reducible) {d : Binding}
    (hd : d ∈ l.bindings q s (q.enclosed s)) (hw : q.Written) : d.Within (l.names q) := by
  cases hl with
  | @vertex u hu _ _ =>
    obtain ⟨x,hx,o,-,rfl⟩ := hd
    exact Binding.within_of _ ⟨u,⟨rfl,hu.isVertex hq.wellFormed⟩,(hw.mem_itemNames hx).mpr rfl⟩
  | subquery _ _ => exact Fits.within hd

/-- Names from the other end of an edge reach out of the subquery that hangs there. -/
theorem Leads.beyond (hl : q.Leads e t (.subquery c)) (hq : q.WellFormed) {u : ItemId}
    (hu : q.Ends e (!t) u) (huN : q.Among N u) : q.Beyond N c := by
  cases hl with
  | subquery hx _ =>
    obtain ⟨v,u',-,hu',-,huc⟩ := hx
    refine ⟨u,huN,?_⟩
    rintro (⟨-,hin⟩|⟨he,-⟩)
    · exact huc (hu'.unique hu ▸ hin)
    · exact he.not_isVertex (hu.isVertex hq)

/-- What hangs at an end of an edge is hidden, or it asks for nothing. -/
theorem Leads.meets {l : Limb} (hl : q.Leads e t l) (hq : q.WellFormed) {owed : Option String}
    {G : ContainerId → Set Binding} (hu : q.Ends e (!t) u) (huN : q.Among N u)
    {i : ItemId} (hi : q.Among (l.names q) i) (hhid : ¬q.Hidden N i) (b : Binding) :
    q.Meets s G owed i b := by
  obtain ⟨n,hni,j,hj,hnj⟩ := hi
  obtain rfl := hq.eq_of_name hni hnj
  cases hl with
  | @vertex w hw hb _ =>
    obtain ⟨rfl,hv⟩ := hj
    have hnot : ∀ {y ends}, q.item? i = some y → y.ends? = some ends → False := fun hy he =>
      (isEdge_iff.mpr ⟨_,_,hy,he⟩).not_isVertex hv
    exact ⟨fun x hx _ hbx => absurd ((itemBounds_of_some hx).trans hbx) hb,
      fun _ _ hy he _ => (hnot hy he).elim,fun _ _ _ _ _ hy he _ _ => (hnot hy he).elim⟩
  | @subquery d hx hb =>
    exact absurd ⟨d,hb,hj,(Leads.subquery hx hb).beyond hq hu huN⟩ hhid

/-- What a processed constraint is about lies in the place of one vertex. -/
theorem Accounts.eq_place (hD : q₀.Accounts q D) (hq : q.WellFormed) {k : Constraint} (hk : k ∈ D) :
    ∃ w x, q.item? w = some x ∧ x.kind = .composite ∧ (∀ n ∈ k.itemNames, n ∈ q.itemNames w) ∧
      ∀ {i n}, n ∈ k.itemNames → n ∈ q.itemNames i → i = w := by
  obtain ⟨w,x,hx,hkind,hn⟩ := hD.covered k hk
  rw [← itemNames_of_some hx] at hn
  exact ⟨w,x,hx,hkind,hn,fun hnk hni => hq.eq_of_name hni (hn _ hnk)⟩

/-- What a processed constraint is about lies in the place of one of the vertices of an edge, if it
lies in what the edge and the vertices become. -/
theorem Accounts.apart (hD : q₀.Accounts q D) (h₀ : q₀.Definite) (hq : q.WellFormed)
    (he : q.IsEdge e) {I : List ItemId} {k : Constraint} (hk : k ∈ D) (hkI : ∀ n ∈ k.itemNames, ∃ i ∈ I, n ∈ q.itemNames i) : ∃ w ∈ I, w ≠ e ∧
      (∃ x, q.item? w = some x ∧ x.kind = .composite) ∧ ∀ n ∈ k.itemNames, n ∈ q.itemNames w := by
  obtain ⟨w,x,hx,hkind,hn,hplace⟩ := hD.eq_place hq hk
  obtain ⟨n,hnk⟩ := h₀.itemed (hD.declared k hk)
  obtain ⟨i,hi,hni⟩ := hkI n hnk
  obtain rfl := hplace hnk hni
  refine ⟨i,hi,?_,⟨x,hx,hkind⟩,hn⟩
  rintro rfl
  exact he.not_isVertex ⟨x,hx,Item.isVertex_iff_kind.mpr (by rw [hkind]; decide)⟩

namespace Lineal

/-- What hangs at an edge is a subquery if a composite vertex is left of it. -/
theorem exists_subquery (h : q₀.Lineal q f) (hreg : q₀.Regular) {l : Limb}
    (hl : q₀.Leads e t l) (hnames : {n | n ∈ q.itemNames u} = l.names q₀)
    (hz : q.item? u = some z) (hk : z.kind = .composite) : ∃ c, l = .subquery c := by
  cases hl with
  | subquery _ _ => exact ⟨_,rfl⟩
  | @vertex w _ hb _ =>
    obtain ⟨u₀,hu₀,rfl⟩ := h.composite hz hk
    obtain ⟨x₀,hx₀,-⟩ := hu₀.1
    obtain ⟨n,hn⟩ := hreg.wellFormed.exists_name hx₀
    have hmem : n ∈ (Limb.vertex w).names q₀ := by
      rw [← hnames]
      exact h.names.mpr ⟨u₀,rfl,hn⟩
    obtain ⟨_,⟨rfl,-⟩,hnw⟩ := hmem
    exact absurd (hreg.wellFormed.eq_of_name hn hnw ▸ hu₀.2) hb

variable (h₀ : q₀.Definite) (h : q₀.Lineal q f) (hD : q₀.Accounts q D)
  (hr : Reduction q rule a q' v)

include h₀ h hD hr

/-- A vertex that absorbs a self-loop presents what fits its items and the self-loop. -/
theorem presents_loop (hi : a.items = [v,e]) (hends : ∀ t, q.Ends e t v) (hv : q.SettledAt v)
    (hy : q.item? e = some y) (he : y.ends? = some ends) (hb : y.bounds = none)
    (hX : Presents X (q₀.fitting s D none {n | n ∈ q.itemNames v})) :
    Presents (AbsorbSelfLoop.result (s.linkRows y.condition) y ends X)
      (q₀.fitting s D none {n | n ∈ q'.itemNames v}) := by
  obtain ⟨y₀,ends₀,hy₀,hsame,he₀,hw,hnames⟩ := h.exists_edge h₀.written hy he
  have hedge := (hends true).isEdge
  have hbare : q.IsBare v := ⟨hv.isVertex,hv.itemBounds⟩
  have hem : e ∈ a.items := by simp [hi]
  have hvm : v ∈ a.items := by simp [hi]
  have hout : {n | n ∈ q'.itemNames v} = {n | n ∈ q.itemNames v} ∪ {y₀.joinedName} := by
    ext n
    rw [← hnames]
    refine (hr.changes h.wellFormed).itemNames_out.trans ?_
    simp [hi]
  have hyN : y₀.joinedName ∉ {n | n ∈ q.itemNames v} :=
    hsame.joinedName ▸ h.joinedName_not_mem h₀.written hy he hv.isVertex
  have hfits := @fits_loop _ s (q₀.enclosed s) none D _ _ _ _ h₀.written h₀.regular.closed hy₀ he₀
    (h.sealed h₀.regular hbare.1) hyN
    (fun t => EdgeEnds.nameAt_of_written hw t ▸ h.reducible.nameAt hy he (hends t))
    (fun c hc hbeyond => h.beyond h₀.regular h₀.orderly hr hedge hem hbare hvm hc (hout ▸ hbeyond))
    (fun t => h.not_leads h₀.regular h₀.orderly hedge
      (not_annotatedAt (hends t) (hends (!t)) hbare.2 rfl))
    (hout ▸ h.not_hidden h₀.regular h₀.orderly hr hedge hem (hends true) hvm)
    (fun k hk hkN => by
      obtain ⟨w,hwI,hwe,-,hn⟩ := hD.apart h₀ h.wellFormed hedge (I:=[v,e]) hk fun n hn => by
        rcases hkN n hn with hn|hn
        · exact ⟨v,by simp,hn⟩
        · exact ⟨e,by simp,show n ∈ {n | n ∈ q.itemNames e} from hnames ▸ hn⟩
      rcases List.mem_pair.mp hwI with rfl|rfl
      · exact hn
      · exact absurd rfl hwe)
    (hsame.bounds ▸ hb)
  have hpresents := @presents_absorbSelfLoop s _ _ _ y ends hX
    (fun c hc => Fits.within hc) (hsame.joinedName ▸ hyN)
  simp only [hsame.joinedName,hsame.linksOf hw] at hpresents
  rw [hout,fitting,← hfits]
  exact hpresents

/-- Two vertices that become one present what fits the items of both and the edge. -/
theorem presents_join (hi : a.items = [v,e,u]) (hnear : q.Ends e t v) (hfar : q.Ends e (!t) u)
    (hne : v ≠ u) (hv : q.SettledAt v) (hu : q.SettledAt u)
    (together : q.itemOwner v = q.itemOwner u) (hx : q.item? v = some x)
    (hy : q.item? e = some y) (he : y.ends? = some ends)
    (hX : Presents X (q₀.fitting s D none {n | n ∈ q.itemNames v}))
    (hZ : Presents Z (q₀.fitting s D none {n | n ∈ q.itemNames u})) (hs : s.Keyed) :
    Presents (CollapseEdge.result (s.linkRows y.condition) x y ends X Z)
      (q₀.fitting s D none {n | n ∈ q'.itemNames v}) := by
  obtain ⟨y₀,ends₀,hy₀,hsame,he₀,hw,hnames⟩ := h.exists_edge h₀.written hy he
  have hedge := hnear.isEdge
  have hbare : q.IsBare v := ⟨hv.isVertex,hv.itemBounds⟩
  have hbare' : q.IsBare u := ⟨hu.isVertex,hu.itemBounds⟩
  have hem : e ∈ a.items := by simp [hi]
  have hvm : v ∈ a.items := by simp [hi]
  have hum : u ∈ a.items := by simp [hi]
  have hout : {n | n ∈ q'.itemNames v} =
      {n | n ∈ q.itemNames v} ∪ {n | n ∈ q.itemNames u} ∪ {y₀.joinedName} := by
    ext n
    rw [← hnames]
    refine (hr.changes h.wellFormed).itemNames_out.trans ?_
    simp [hi,or_left_comm,or_comm]
  have hyN : ∀ {w}, q.IsVertex w → y₀.joinedName ∉ {n | n ∈ q.itemNames w} := fun hw =>
    hsame.joinedName ▸ h.joinedName_not_mem h₀.written hy he hw
  have hNM := h.wellFormed.disjoint_itemNames hne
  have hfits := @fits_join _ s (q₀.enclosed s) none D _ _ _ _ _ t h₀.written h₀.regular.closed hy₀
    he₀ (h.sealed h₀.regular hbare.1) (hyN hbare.1) (h.sealed h₀.regular hbare'.1) hNM (hyN hbare'.1)
    (EdgeEnds.nameAt_of_written hw t ▸ h.reducible.nameAt hy he hnear)
    (EdgeEnds.nameAt_of_written hw (!t) ▸ h.reducible.nameAt hy he hfar)
    (fun c hc hbeyond => ⟨h.beyond h₀.regular h₀.orderly hr hedge hem hbare hvm hc (hout ▸ hbeyond),
      h.beyond h₀.regular h₀.orderly hr hedge hem hbare' hum hc (hout ▸ hbeyond)⟩)
    (fun t' => h.not_leads h₀.regular h₀.orderly hedge fun hann => by
      rcases eq_or_opposite t t' with rfl|rfl
      · exact not_annotatedAt hnear hfar hbare.2 together hann
      · rw [Bool.not_not] at hfar
        exact not_annotatedAt hfar hnear hbare'.2 together.symm hann)
    (hout ▸ h.not_hidden h₀.regular h₀.orderly hr hedge hem hnear hvm)
    (fun k hk hkN => by
      obtain ⟨w,hwI,hwe,-,hn⟩ := hD.apart h₀ h.wellFormed hedge (I:=[v,e,u]) hk fun n hn => by
        rcases hkN n hn with (hn|hn)|hn
        · exact ⟨v,by simp,hn⟩
        · exact ⟨u,by simp,hn⟩
        · exact ⟨e,by simp,show n ∈ {n | n ∈ q.itemNames e} from hnames ▸ hn⟩
      simp only [List.mem_cons,List.not_mem_nil,or_false] at hwI
      rcases hwI with rfl|rfl|rfl
      · exact .inl hn
      · exact absurd rfl hwe
      · exact .inr hn)
  have hpresents := @presents_collapseEdge s _ _ _ _ _ _ x y ends hs hX hZ
    (fun c hc => Fits.within hc) (fun c hc => Fits.within hc) hNM
    ⟨hsame.joinedName ▸ hyN hbare.1,hsame.joinedName ▸ hyN hbare'.1⟩
  simp only [hsame.joinedName,hsame.linksAcross hw,hsame.permits,
    h.reducible.hasName hx hy he hnear hfar hne] at hpresents
  rw [hout,fitting,← hfits]
  exact hpresents

/-- A vertex that absorbs an annotated one presents what fits its items, the edge and what hangs
there. The upper bound is still owed. -/
theorem presents_absorb (hi : a.items = [v,e,u]) (ha : q.Absorbs v e t u)
    (hx : q.item? v = some x) (hy : q.item? e = some y) (hz : q.item? u = some z)
    (he : y.ends? = some ends) {b : Annotation} (hb : z.bounds = some b) {l : Limb}
    (hl : q₀.Leads e t l) (hlb : l.bounds q₀ = q.itemBounds u)
    (hln : {n | n ∈ q.itemNames u} = l.names q₀)
    (hX : Presents X (q₀.fitting s D none {n | n ∈ q.itemNames v}))
    (hZ : Presents Z (l.bindings q₀ s (q₀.enclosed s))) (hs : s.Keyed) :
    Presents (AbsorbAnnotatedVertex.result (s.linkRows y.condition) x y z ends X Z)
      (q₀.fitting s D (if b.max.isSome then some (ends.nameAt t) else none)
        {n | n ∈ q'.itemNames v}) := by
  obtain ⟨y₀,ends₀,hy₀,hsame,he₀,hw,hnames⟩ := h.exists_edge h₀.written hy he
  have hedge := ha.far.isEdge
  have hbare : q.IsBare v := ⟨ha.settled.isVertex,ha.settled.itemBounds⟩
  have hem : e ∈ a.items := by simp [hi]
  have hvm : v ∈ a.items := by simp [hi]
  have hout : {n | n ∈ q'.itemNames v} =
      {n | n ∈ q.itemNames v} ∪ l.names q₀ ∪ {y₀.joinedName} := by
    ext n
    rw [← hnames,← hln]
    refine (hr.changes h.wellFormed).itemNames_out.trans ?_
    simp [hi,or_left_comm,or_comm]
  have hyN : y₀.joinedName ∉ {n | n ∈ q.itemNames v} :=
    hsame.joinedName ▸ h.joinedName_not_mem h₀.written hy he hbare.1
  have hNM : Disjoint {n | n ∈ q.itemNames v} (l.names q₀) :=
    hln ▸ h.wellFormed.disjoint_itemNames ha.ne
  obtain ⟨v₀,hv₀,hplace⟩ := h.exists_end ha.near
  obtain ⟨x₀,hx₀,-⟩ := hv₀.isVertex h₀.regular.wellFormed
  have hamong : q₀.Among {n | n ∈ q'.itemNames v} v₀ :=
    ((h.among_iff h₀.regular.wellFormed).mpr ⟨hplace,x₀,hx₀⟩).mono fun n hn => by
      rw [hout]
      exact .inl (.inl hn)
  have hfits := fits_gather (s:=s) (G:=q₀.enclosed s) (D:=D) h₀.written h₀.regular.closed hy₀ he₀
    (h.sealed h₀.regular hbare.1) hyN h₀.orderly hl (hlb.trans ((itemBounds_of_some hz).trans hb)) hNM
    (EdgeEnds.nameAt_of_written hw (!t) ▸ h.reducible.nameAt hy he ha.near)
    (fun d hd => hl.within h₀.written.reducible hd h₀.written)
    (fun c hc hbeyond => h.beyond h₀.regular h₀.orderly hr hedge hem hbare hvm hc (hout ▸ hbeyond))
    (fun i hi hhid => hl.meets h₀.regular.wellFormed hv₀ (hout ▸ hamong) hi hhid)
    (hout ▸ h.not_hidden h₀.regular h₀.orderly hr hedge hem ha.near hvm)
    (fun k hk hkN => by
      obtain ⟨w,hwI,hwe,⟨z',hz',hcomposite⟩,hn⟩ := hD.apart h₀ h.wellFormed hedge
        (I:=[v,e,u]) hk fun n hn => by
          rcases hkN n hn with (hn|hn)|hn
          · exact ⟨v,by simp,hn⟩
          · exact ⟨u,by simp,show n ∈ {n | n ∈ q.itemNames u} from hln ▸ hn⟩
          · exact ⟨e,by simp,show n ∈ {n | n ∈ q.itemNames e} from hnames ▸ hn⟩
      simp only [List.mem_cons,List.not_mem_nil,or_false] at hwI
      rcases hwI with rfl|rfl|rfl
      · exact .inl hn
      · exact absurd rfl hwe
      · obtain ⟨c,rfl⟩ := h.exists_subquery h₀.regular hl hln hz' hcomposite
        refine .inr ⟨c,hl.bounds,hl.beyond h₀.regular.wellFormed hv₀ (hout ▸ hamong),fun n hnk => ?_⟩
        rw [← hln]
        exact hn n hnk)
    rfl
  have hpresents := @presents_absorbAnnotatedVertex s _ _ _ _ _ _ x y z ends hs hX hZ
    (fun c hc => Fits.within hc) (fun d hd => hl.within h₀.written.reducible hd h₀.written) hNM
    (hsame.joinedName ▸ hyN)
  simp only [hsame.joinedName,hsame.linksAcross hw,hsame.permits,hb,
    h.reducible.hasName hx hy he ha.near (by rw [Bool.not_not]; exact ha.far) ha.ne] at hpresents
  rw [hout,fitting,EdgeEnds.nameAt_of_written hw,← hfits]
  exact hpresents

end Lineal

namespace Lineal

variable (h₀ : q₀.Definite) (h : q₀.Lineal q f)

include h₀ h

/-- A vertex that owed an upper bound presents what fits its items if the bound is enforced. -/
theorem presents_limit (hv : q.IsBare v) {m : Provenance} {most : Nat}
    (hm : q.itemMarker v = some m) (hmost : m.max = some most)
    (hX : Presents X (q₀.fitting s D (some m.item) {n | n ∈ q.itemNames v})) :
    Presents (ApplyUpperLimit.result m.item most X)
      (q₀.fitting s D none {n | n ∈ q.itemNames v}) := by
  obtain ⟨e,hplace,⟨t,l,b,y₀,ends₀,hl,hlb,hy₀,he₀,hitem,hmax⟩,howner⟩ := h.marked hm
  have hamong : q₀.Among {n | n ∈ q.itemNames v} e :=
    (h.among_iff h₀.regular.wellFormed).mpr ⟨hplace,y₀,hy₀⟩
  have hvisible : ¬q₀.Hidden {n | n ∈ q.itemNames v} e := fun ⟨c,hc,hin,hbeyond⟩ =>
    (h.beyond_iff h₀.regular h₀.orderly hv hc).mp hbeyond (howner c hc hin)
  have hfits := fits_limit (s:=s) (G:=q₀.enclosed s) (D:=D) h₀.orderly h₀.written h₀.regular.closed
    hamong hvisible hy₀ he₀ hl hlb (hmax ▸ hmost)
  rw [fitting,← hfits]
  rw [hitem] at hX ⊢
  exact presents_applyUpperLimit hX (ends₀.nameAt t) most

/-- A vertex keeps what satisfies a constraint about its items. -/
theorem presents_constraint (hv : q.IsBare v) {k : Constraint} (hk : k ∈ q.declared c)
    (hin : ∀ n ∈ k.itemNames, n ∈ {n | n ∈ q.itemNames v}) {operator : Comparison}
    (hoperator : Comparison.ofKeyword? k.operator = some operator) (hb : operator.isBinary = true)
    (hX : Presents X (q₀.fitting s D none {n | n ∈ q.itemNames v})) :
    Presents (ProcessConstraint.result s k operator X)
      (q₀.fitting s (insert k D) none {n | n ∈ q.itemNames v}) := by
  have hk₀ := h.declared hk
  obtain ⟨n,hn⟩ := h₀.itemed ⟨c,hk₀⟩
  have hvisible : ¬q₀.Conceals {n | n ∈ q.itemNames v} k := fun ⟨d,hd,hbeyond,hkd⟩ => by
    have hroot : d ≠ .root := fun hr => hd (hr ▸ h₀.regular.wellFormed.subqueryBounds_root)
    obtain rfl := h₀.housed hd hk₀ hkd
    obtain ⟨C,hC,-⟩ := mem_declared.mp hk
    obtain ⟨i,hi,hni⟩ := hkd n hn
    obtain ⟨j,hj,hnj⟩ := h.names.mp (hin n hn)
    obtain rfl := h₀.regular.wellFormed.eq_of_name hnj hni
    exact (h.beyond_iff h₀.regular h₀.orderly hv hd).mp hbeyond
      (h.owner_of_place h₀.regular hC hroot hv.1 hj hi)
  have hfits := @fits_constraint _ s (q₀.enclosed s) none D _ _ hin hvisible
  rw [fitting,← hfits]
  exact presents_processConstraint hX hoperator hb (h₀.decided ⟨c,hk₀⟩).item

/-- Nothing else is in the place of a plain item. -/
theorem eq_of_plain (hz : q.item? u = some z) (hk : z.kind ≠ .composite) {x : Item}
    (hx : q₀.item? v = some x) (hv : f v = u) : v = u := by
  obtain ⟨z₀,hz₀,hsame⟩ := h.plain hz hk
  obtain ⟨n,hn⟩ := h₀.regular.wellFormed.exists_name hx
  have hnz : n ∈ q.itemNames u := h.names.mpr ⟨v,hv,hn⟩
  rw [itemNames_of_some hz,hsame.names,← itemNames_of_some hz₀] at hnz
  exact h₀.regular.wellFormed.eq_of_name hn hnz

/-- A composite vertex is left of a subquery. -/
theorem composite_of_left (hl : q₀.Left q f c u) (hu : q.IsVertex u) (hz : q.item? u = some z) :
    z.kind = .composite := by
  by_contra hk
  obtain ⟨w,hw,hwu⟩ := h.origin hu
  obtain ⟨x,hx,-⟩ := id hw
  obtain rfl := h.eq_of_plain h₀ hz hk hx hwu
  have howner := (hl.fiber hw).mp hwu
  obtain ⟨d,C,hd,hC⟩ := h₀.regular.wellFormed.itemOwner hx
  rw [howner] at hd
  cases hd
  obtain ⟨b,hb,hj⟩ := h.joined hC hl.gone
  obtain ⟨x',hx',-⟩ := hb.1
  obtain rfl := h.eq_of_plain h₀ hz hk hx' ((hj hw howner).symm.trans hwu)
  obtain ⟨z₀,hz₀,hsame⟩ := h.plain hz hk
  refine hl.bounds.1 (hl.bounds.2.symm.trans ?_)
  rw [itemBounds_of_some hz,hsame.bounds,← itemBounds_of_some hz₀,hb.2]

variable (hD : q₀.Accounts q D)

include hD

/-- A plain vertex presents the objects that satisfy its condition. -/
theorem presents_vertex (hs : s.Keyed) (hx : q.item? v = some x) (hk : x.kind = .vertex)
    (hb : x.bounds = none) : Presents (ofObjects s x.condition x.joinedName,[])
      (q₀.fitting s D none {n | n ∈ q.itemNames v}) := by
  have hplain : x.kind ≠ .composite := by
    rw [hk]
    decide
  obtain ⟨x₀,hx₀,hsame⟩ := h.plain hx hplain
  have hnames : {n | n ∈ q.itemNames v} = {x₀.joinedName} :=
    hsame.joinedName ▸ h.itemNames_plain h₀.written hx hplain
  have hfits := @fits_vertex _ s (q₀.enclosed s) none D _ _ h₀.written hx₀
    (Item.isVertex_iff_kind.mpr (by rw [← hsame.kind,hk]; decide)) (hsame.bounds ▸ hb)
    fun k hkD hkn => by
      obtain ⟨w,z,hz,hcomposite,-,hplace⟩ := hD.eq_place h.wellFormed hkD
      obtain ⟨n,hn⟩ := h₀.itemed (hD.declared k hkD)
      have hnv : n ∈ {n | n ∈ q.itemNames v} := by
        rw [hnames]
        exact hkn n hn
      rw [← hplace hn hnv,hx] at hz
      cases hz
      rw [hk] at hcomposite
      cases hcomposite
  have hpresents := presents_ofObjects hs x.condition x.joinedName
  simp only [hsame.condition,hsame.joinedName] at hpresents ⊢
  rw [hnames,fitting,hfits]
  exact hpresents

/-- Once an annotated subquery is gone, all that is declared about it has been processed. -/
theorem fitting_eq_enclosed (hc : q₀.subqueryBounds c ≠ none) (hgone : q.container? c = none) :
    q₀.fitting s D none ((Limb.subquery c).names q₀) = q₀.enclosed s c := by
  -- Nothing that leads out of a subquery lies within this one.
  have hhang : ∀ i t d, q₀.Among ((Limb.subquery c).names q₀) i →
      ¬q₀.Leads i t (.subquery d) := by
    rintro i t d ⟨n,hn,j,hj,hnj⟩ hl
    obtain rfl := h₀.regular.wellFormed.eq_of_name hn hnj
    cases hl with
    | subquery hx _ =>
      obtain ⟨v,u,hv,hu,hvd,hud⟩ := hx
      rcases hj with ⟨hiv,-⟩|⟨-,hin⟩
      · exact hv.isEdge.not_isVertex hiv
      · exact hud ((hin _ _ hu).trans ((hin _ _ hv).symm.trans hvd))
  ext b
  constructor
  · intro hb
    refine Fits.hang (Fits.settle hb fun l hl hlc _ => ?_) fun i t d hi _ hl =>
      absurd hl (hhang i t d hi)
    rcases hD.settled l hl with ⟨l',⟨d',hl'⟩,halike⟩|⟨k,hk,halike⟩
    · have hl₀ := h.declared hl'
      rw [← Constraint.itemNames_of_sameRelation halike.1] at hlc
      obtain rfl := h₀.housed hc hl₀ hlc
      obtain ⟨C,hC,-⟩ := mem_declared.mp hl'
      rw [hgone] at hC
      cases hC
    · exact ⟨k,hk,halike,h₀.any_isBinary (hD.declared k hk)⟩
  · intro hb
    refine Fits.hang (Fits.settle hb fun l hl _ _ => ?_) fun i t d hi _ hl =>
      absurd hl (hhang i t d hi)
    have hl₀ := hD.declared l hl
    exact ⟨l,hl₀,h₀.alike_self hl₀,h₀.any_isBinary hl₀⟩

/-- What hangs at an edge is presented by the vertex that is left of it. -/
theorem presents_limb (hs : s.Keyed) (ha : q.Absorbs v e t u) (hz : q.item? u = some z) {l : Limb}
    (hl : q₀.Leads e t l) (hln : {n | n ∈ q.itemNames u} = l.names q₀)
    (hZ : z.kind = .composite → Presents Z (q₀.fitting s D none {n | n ∈ q.itemNames u}))
    (hplain : z.kind ≠ .composite → Z = (ofObjects s z.condition z.firstName,[])) :
    Presents Z (l.bindings q₀ s (q₀.enclosed s)) := by
  rcases h.limb h₀.regular ha with ⟨hk,hl'⟩|⟨c,hleft,hl'⟩
  · obtain rfl := hl.unique hl'
    have hkind : z.kind ≠ .composite := fun hcomposite => by
      obtain ⟨w,hw,hwu⟩ := h.composite hz hcomposite
      obtain ⟨x,hx,-⟩ := id hw.1
      obtain rfl := hk.only hx hwu
      exact ha.annotated (hk.bounds.trans hw.2)
    obtain ⟨z₀,hz₀,hsame⟩ := h.plain hz hkind
    have hfirst : z.firstName = z₀.joinedName := by
      rw [Item.firstName,hsame.names,h₀.written.joinedName_eq hz₀]
      rfl
    have hpresents := presents_ofObjects hs z.condition z.firstName
    have hbindings : (Limb.vertex u).bindings q₀ s (q₀.enclosed s) =
        {c | ∃ o ∈ s.having z.condition, c = .of .object z.firstName {o}} := by
      ext d
      constructor
      · rintro ⟨x,hx,o,ho,rfl⟩
        rw [hz₀] at hx
        cases hx
        exact ⟨o,hsame.condition ▸ ho,by rw [hfirst]⟩
      · rintro ⟨o,ho,rfl⟩
        exact ⟨z₀,hz₀,o,hsame.condition ▸ ho,by rw [hfirst]⟩
    rw [hplain hkind,hbindings]
    exact hpresents
  · obtain rfl := hl.unique hl'
    have hZ' := hZ (h.composite_of_left h₀ hleft (ha.far.isVertex h.wellFormed) hz)
    rw [hln,h.fitting_eq_enclosed h₀ hD hl.bounds hleft.gone] at hZ'
    exact hZ'

end Lineal

end Query

end GraphPattern
