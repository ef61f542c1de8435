import GraphPattern.Proofs.Matches.Assignment
import GraphPattern.Proofs.Matches.Collapse

/-!
# Absorbing an annotated vertex within its bounds

What a run does when it replays the absorption of an annotated vertex and, if the vertex has an
upper bound, the enforcement of the marker that the absorption leaves behind. The lower bound is
looked at before the objects of the vertex are added, the upper bound afterwards and under the name
that the marker gives. Together they keep the matches that the annotation admits.
-/

namespace GraphPattern

open Step Matches Workspace

variable {s : Store} {x y z : Item} {ends : EdgeEnds} {t : Bool} {b : Annotation} {n : String}
  {X R : Rows × Rows} {most : Nat} {N : Set String}

/-! ## Tables -/

/-- A match together with the objects of an annotated vertex that as many links as an edge allows join
to it, and with these links. -/
def Store.absorbing (s : Store) (y z : Item) (ends : EdgeEnds) (t : Bool) (c : Binding) : Binding :=
  c ⊔ .of .object z.joinedName (s.instancesAt y ends t z.condition c) ⊔ .of .link y.joinedName
    {l | ∃ o ∈ s.instancesAt y ends t z.condition c, l ∈ s.linksTo y ends t c o}

/-- Under the name of the annotated vertex stand its objects alone. -/
theorem Store.absorbing_object {c : Binding} (hc : c.Within N) (hz : z.joinedName ∉ N) :
    s.absorbing y z ends t c .object z.joinedName = s.instancesAt y ends t z.condition c := by
  rw [absorbing,Binding.sup_of_other (by decide),Binding.sup_apply,hc.eq_empty hz,Set.empty_union,
    Binding.of_self]

/-- An absorption looks at the lower bound. -/
theorem describes_absorbing (hs : s.Keyed) (hX : Tidy X) (ht : x.hasName ends.sourceName = !t)
    (hb : z.bounds = some b) (hn : ends.nameAt t = z.joinedName) :
    Describes (Rule.AbsorbAnnotatedVertex.result (s.linkRows y.condition) x y z ends X
        (ofObjects s z.condition z.joinedName,[]))
      {g | g ∈ numbers X ∧
        b.min.getD 0 ≤ (s.instancesAt y ends t z.condition (bound X g)).ncard}
      fun g => s.absorbing y z ends t (bound X g) := by
  refine (describes_hanging hs hX (presents_ofObjects hs z.condition z.joinedName) ht hb).congr ?_
    fun g _ => ?_
  · simp only [Store.ncard_hanging_objects hn]
  · rw [Store.gathered_objects hn]
    funext kind m
    simp only [Store.absorbing,Binding.sup_apply,Set.union_assoc]

/-- The enforcement looks at the upper bound. -/
theorem describes_enforced (hX : ∀ g, (bound X g).Within N) (hz : z.joinedName ∉ N)
    (hR : Describes R {g | g ∈ numbers X ∧
        b.min.getD 0 ≤ (s.instancesAt y ends t z.condition (bound X g)).ncard}
      fun g => s.absorbing y z ends t (bound X g)) (hb : b.max = some most) :
    Describes (Rule.ApplyUpperLimit.result z.joinedName most R)
      {g | g ∈ numbers X ∧
        b.admits (s.instancesAt y ends t z.condition (bound X g)).ncard = true}
      fun g => s.absorbing y z ends t (bound X g) := by
  refine (describes_applyUpperLimit hR.proper z.joinedName most).congr ?_ fun g hg =>
    hR.bound_eq (hR.mem_numbers.mp hg.1)
  ext g
  have hadmits : b.admits (s.instancesAt y ends t z.condition (bound X g)).ncard = true ↔
      b.min.getD 0 ≤ (s.instancesAt y ends t z.condition (bound X g)).ncard ∧
        (s.instancesAt y ends t z.condition (bound X g)).ncard ≤ most := by
    refine Annotation.admits_iff.trans ?_
    simp only [hb,Option.some.injEq,forall_eq']
  constructor
  · rintro ⟨hg,hfew⟩
    have hg := hR.mem_numbers.mp hg
    rw [hR.bound_eq hg,Store.absorbing_object (hX g) hz] at hfew
    exact ⟨hg.1,hadmits.mpr ⟨hg.2,hfew⟩⟩
  · rintro ⟨hg,hall⟩
    obtain ⟨henough,hfew⟩ := hadmits.mp hall
    refine ⟨hR.mem_numbers.mpr ⟨hg,henough⟩,?_⟩
    rwa [hR.bound_eq ⟨hg,henough⟩,Store.absorbing_object (hX g) hz]

/-! ## Reductions that are replayed -/

namespace Rule

/-- What is replayed is what the rule did to the query before, and this query came out. -/
def Performed (rule : Rule) (r : Replay) (q : Query) : Prop :=
  ∃ out, rule.apply r.before r.application = .ok ⟨q,out⟩ ∧ Reduced.result ⟨q,out⟩ = .ok r.result

variable {r l : Replay} {q q' : Query} {v e u : ItemId} {rest rest' : List ItemId} {w w' : Workspace}

namespace ApplyUpperLimit

/-- The vertex whose marker is removed keeps its name. -/
theorem joinedName_of_performed (h : applyUpperLimit.Performed l q)
    (hi : l.application.items = v :: rest) (hx : l.before.item? v = some x) :
    l.result.joinedName = x.joinedName := by
  obtain ⟨out,ha,hres⟩ := h
  change ApplyUpperLimit.apply _ _ = _ at ha
  simp only [ApplyUpperLimit.apply,Application.item,hi,List.getElem?_cons_zero,except_pure,
    ok_bind] at ha
  obtain ⟨_,_,hset,ha⟩ := bind_eq_ok.mp (ofEdit_eq_ok.mp ha)
  cases ha
  obtain ⟨x',hx',hafter⟩ := Query.item?_of_setProvenance hset
  have hsame : x' = x := Option.some_inj.mp (hx'.symm.trans hx)
  obtain ⟨y,hy,hname⟩ := exists_output hres
  have hy' : y = { x' with provenance := none } := Option.some_inj.mp (hy.symm.trans hafter)
  rw [← hname,hy',hsame]
  rfl

/-- A replay answers with the name of the result. -/
theorem answer_of_replay {a : Option String} (h : replay l w = .ok a w') :
    a = some l.result.joinedName := by
  obtain ⟨_,_,-,h⟩ := bind_eq_ok.mp h
  obtain ⟨x,_,-,h⟩ := bind_eq_ok.mp h
  cases hp : x.provenance with
  | none =>
    simp only [hp] at h
    cases h
  | some m =>
    simp only [hp] at h
    cases hm : m.max with
    | none =>
      simp only [hm] at h
      cases h
      rfl
    | some most =>
      simp only [hm] at h
      obtain ⟨_,_,-,h⟩ := bind_eq_ok.mp h
      cases h
      rfl

end ApplyUpperLimit

namespace AbsorbAnnotatedVertex

open CollapseEdge (Tabled tabled_of_cells)

/-- The marker keeps the upper bound, and the name of the absorbed vertex by which the edge ends. -/
theorem eq_some_of_marker {marker : Option Provenance} (hb : z.bounds = some b)
    (hm : b.max = some most) (h : AbsorbAnnotatedVertex.marker q e z = .ok marker) :
    ∃ m, marker = some m ∧ m.item ∈ z.names ∧ m.max = some most := by
  simp only [AbsorbAnnotatedVertex.marker,hb,Option.bind_some,hm] at h
  obtain ⟨y,-,h⟩ := except_bind_eq_ok.mp h
  cases hname : y.ends?.bind fun ends => ends.nameAmong? z.names with
  | none =>
    simp only [hname] at h
    cases h
  | some name =>
    simp only [hname,Provenance.ofNames] at h
    obtain ⟨ends,-,hamong⟩ := Option.bind_eq_some_iff.mp hname
    have hmem : name ∈ z.names := EdgeEnds.nameAmong?_mem hamong
    split at h
    · cases h
    · cases h
      exact ⟨_,rfl,hmem,rfl⟩

/-- The vertex that stays has the name of the result, and a marker for the upper bound of the absorbed
one. -/
theorem exists_marked (h : absorbAnnotatedVertex.Performed r q)
    (hi : r.application.items = v :: e :: u :: rest) (hz : r.before.item? u = some z)
    (hb : z.bounds = some b) : ∃ x, q.item? v = some x ∧ x.joinedName = r.result.joinedName ∧
      ∀ most, b.max = some most → ∃ m, x.provenance = some m ∧ m.item ∈ z.names ∧
        m.max = some most := by
  obtain ⟨out,ha,hres⟩ := h
  change AbsorbAnnotatedVertex.apply _ _ = _ at ha
  simp only [AbsorbAnnotatedVertex.apply,Application.item,hi,List.getElem?_cons_zero,
    List.getElem?_cons_succ,except_pure,ok_bind,Query.item_of_some hz] at ha
  obtain ⟨marker,hm,ha⟩ := except_bind_eq_ok.mp ha
  obtain ⟨y,-,ha⟩ := except_bind_eq_ok.mp ha
  obtain ⟨_,_,-,ha⟩ := bind_eq_ok.mp (ofEdit_eq_ok.mp ha)
  obtain ⟨_,_,-,ha⟩ := bind_eq_ok.mp ha
  obtain ⟨x,hx,hname⟩ := exists_output hres
  split at ha
  · obtain ⟨_,_,hset,ha⟩ := bind_eq_ok.mp ha
    cases ha
    refine ⟨x,hx,hname,fun most hmost => ?_⟩
    obtain ⟨m,rfl,hmark⟩ := eq_some_of_marker hb hmost hm
    -- The marker is set last, so nothing that comes after it changes it.
    obtain ⟨x',-,hafter⟩ := Query.item?_of_setProvenance hset
    have hx' : x = { x' with provenance := some m } := Option.some_inj.mp (hx.symm.trans hafter)
    exact ⟨m,by rw [hx'],hmark⟩
  · rename_i hunmarked
    cases ha
    refine ⟨x,hx,hname,fun most hmost => ?_⟩
    obtain ⟨m,rfl,-⟩ := eq_some_of_marker hb hmost hm
    exact absurd rfl hunmarked

/-! ## Absorption and enforcement -/

/-- A replay answers with the name of the result. -/
theorem answer_of_replay {a : Option String} (h : replay r w = .ok a w') :
    a = some r.result.joinedName := by
  obtain ⟨_,_,-,h⟩ := bind_eq_ok.mp h
  obtain ⟨_,_,-,h⟩ := bind_eq_ok.mp h
  obtain ⟨_,_,-,h⟩ := bind_eq_ok.mp h
  obtain ⟨_,_,-,h⟩ := bind_eq_ok.mp h
  obtain ⟨_,_,-,h⟩ := bind_eq_ok.mp h
  cases h
  rfl

/-- No other entry than that of the vertex has the name of the result. -/
def Vacant (w : Workspace) (r : Replay) (x : Item) : Prop :=
  r.result.joinedName ∈ w.registry.keys → r.result.joinedName = x.joinedName

theorem vacant_iff (hX : Tabled w x X) (hz : z.isComposite = false) : Vacant w r x ↔
    w.Offers (held x ++ held z) ∧
      r.result.joinedName ∉ w.registry.keys.filter (· ∉ held x ++ held z) := by
  have hheld : held x ++ held z = [x.joinedName] := by
    rw [hX.held_eq,held,hz]
    rfl
  rw [hheld,Vacant,Offers]
  simp only [List.nodup_singleton,List.mem_singleton,forall_eq,hX.mem_keys,List.mem_filter,
    decide_eq_true_eq,not_and,not_not,true_and]

/-- A plain annotated vertex hangs at an end of an edge, at the other end of which there is a composite
vertex. -/
structure Hangs (q : Query) (v e u : ItemId) (x y z : Item) (ends : EdgeEnds) (t : Bool)
    (b : Annotation) : Prop where
  /-- The composite vertex. -/
  kept : q.item? v = some x
  /-- It is one. -/
  composite : x.isComposite = true
  /-- The edge. -/
  edge : q.item? e = some y
  /-- Its ends. -/
  ended : y.ends? = some ends
  /-- The annotated vertex. -/
  absorbed : q.item? u = some z
  /-- It is plain. -/
  plain : z.kind = .vertex
  /-- It may occur as often as this says. -/
  bounds : z.bounds = some b
  /-- One end has a name of the composite vertex. -/
  near : ends.nameAt (!t) ∈ x.names
  /-- The other end has a name of the annotated one. -/
  far : ends.nameAt t ∈ z.names

section Hangs

variable (h : Hangs q v e u x y z ends t b) (hq : q.WellFormed)

include h

theorem Hangs.not_composite : z.isComposite = false := by
  rw [Item.isComposite,h.plain]
  rfl

theorem Hangs.edge_not_composite : y.isComposite = false := by
  rw [Item.isComposite,Item.kind_edge_iff.mpr ⟨ends,h.ended⟩]
  rfl

include hq

theorem Hangs.names_eq : z.names = [z.joinedName] :=
  (hq.named.named h.absorbed).names_eq h.not_composite

theorem Hangs.nameAt_eq : ends.nameAt t = z.joinedName := by
  simpa only [h.names_eq hq,List.mem_singleton] using h.far

/-- No other item has a name of the composite vertex. -/
theorem Hangs.fresh {i : ItemId} {j : Item} {n : String} (hj : q.item? i = some j)
    (hc : j.isComposite = false) (hn : n ∈ j.names) : n ∉ x.names := by
  intro hm
  have hsame : v = i := hq.named.disjoint h.kept hj hm hn
  rw [← hsame,h.kept] at hj
  cases hj
  exact Bool.false_ne_true (hc.symm.trans h.composite)

/-- The objects and the links that an absorption adds are under names that are new. -/
theorem Hangs.new : z.joinedName ∉ x.names ∧ y.joinedName ∉ x.names := by
  have hy := (hq.named.named h.edge).names_eq h.edge_not_composite
  constructor
  · exact h.fresh hq h.absorbed h.not_composite (by rw [h.names_eq hq]; exact List.mem_singleton_self _)
  · exact h.fresh hq h.edge h.edge_not_composite (by rw [hy]; exact List.mem_singleton_self _)

/-- The source of the edge is at the composite vertex, or else its target is. -/
theorem Hangs.hasName_eq : x.hasName ends.sourceName = !t := by
  cases t with
  | true => exact decide_eq_false (h.fresh hq h.absorbed h.not_composite h.far)
  | false => exact decide_eq_true h.near

end Hangs

/-- An absorption keeps the matches that have enough objects of the annotated vertex. -/
theorem outcome_absorbing (hw : w.Sound) (hs : w.store.Keyed) (hq : r.before.WellFormed)
    (hi : r.application.items = v :: e :: u :: rest) (h : Hangs r.before v e u x y z ends t b)
    (hX : Tabled w x X) :
    Outcome (replay r) w (fun a w' => Vacant w r x ∧ a = some r.result.joinedName ∧
      ∃ R : Rows × Rows, w.Wrote [x.joinedName] r.result.joinedName R.1 R.2 w' ∧
        Describes R {g | g ∈ numbers X ∧
            b.min.getD 0 ≤ (w.store.instancesAt y ends t z.condition (bound X g)).ncard}
          fun g => w.store.absorbing y z ends t (bound X g)) ¬Vacant w r x := by
  have hreplay := (outcome_replay hw hi h.kept h.edge h.absorbed h.ended).given
  rw [← vacant_iff hX h.not_composite] at hreplay
  refine hreplay.imp (fun a w' hw' => ?_) id
  obtain ⟨ha,hvacant,X',Z,hX',hZ,hwrote⟩ := hw'
  have hsupplied : Z = (ofObjects w.store z.condition z.joinedName,[]) := by
    rw [Supplies,if_neg (Bool.eq_false_iff.mp h.not_composite),Item.firstName,h.names_eq hq] at hZ
    exact hZ
  rw [hX.eq_of_supplies hX',hsupplied,hX.held_eq,held,h.not_composite] at hwrote
  exact ⟨hvacant,answer_of_replay ha,_,hwrote,describes_absorbing hs hX.tidy (h.hasName_eq hq)
    h.bounds (h.nameAt_eq hq)⟩

/-- An absorption and, if the absorbed vertex has an upper bound, the enforcement of it. -/
def enforcing (r l : Replay) (b : Annotation) : WorkStep (Option String) := do
  let answer ← replay r
  if b.max.isSome then ApplyUpperLimit.replay l else return answer

/-- The enforcement drops the matches that have too many. -/
theorem outcome_enforcing (hw : w.Sound) (hs : w.store.Keyed) (hq : r.before.WellFormed)
    (hi : r.application.items = v :: e :: u :: rest) (h : Hangs r.before v e u x y z ends t b)
    (hX : Tabled w x X) (hr : absorbAnnotatedVertex.Performed r q)
    (hl : b.max.isSome = true → l.before = q ∧ l.application.items = v :: rest' ∧
      ∃ q', applyUpperLimit.Performed l q') :
    Outcome (enforcing r l b) w (fun a w' => Vacant w r x ∧ a = some r.result.joinedName ∧
      ∃ R : Rows × Rows, w.Wrote [x.joinedName] r.result.joinedName R.1 R.2 w' ∧
        Describes R {g | g ∈ numbers X ∧
            b.admits (w.store.instancesAt y ends t z.condition (bound X g)).ncard = true}
          fun g => w.store.absorbing y z ends t (bound X g)) ¬Vacant w r x := by
  refine (outcome_absorbing hw hs hq hi h hX).bind fun a w₁ h₁ => ?_
  obtain ⟨hvacant,rfl,R,hwrote,hR⟩ := h₁
  cases hmax : b.max with
  | none =>
    have hadmits : ∀ n, b.admits n = true ↔ b.min.getD 0 ≤ n := fun n => by
      refine Annotation.admits_iff.trans (and_iff_left ?_)
      rw [hmax]
      exact fun _ => nofun
    exact .of_ok rfl ⟨hvacant,rfl,R,hwrote,by simpa only [hadmits] using hR⟩
  | some most =>
    obtain ⟨rfl,hitems,q',hperformed⟩ := hl (by rw [hmax]; rfl)
    obtain ⟨x₁,hx₁,hname,hmarked⟩ := exists_marked hr hi h.absorbed h.bounds
    obtain ⟨m,hm,hitem,hmost⟩ := hmarked most hmax
    have hitem : m.item = z.joinedName := by simpa only [h.names_eq hq,List.mem_singleton] using hitem
    have hsame : l.result.joinedName = r.result.joinedName :=
      (ApplyUpperLimit.joinedName_of_performed hperformed hitems hx₁).trans hname
    have hlimit := (ApplyUpperLimit.outcome_replay hwrote.sound hitems hx₁ hm hmost).given
    refine hlimit.imp (fun a w₂ h₂ => ?_) fun hlost => ?_
    · obtain ⟨ha,-,X',hX',hwrote'⟩ := h₂
      rw [hname] at hX'
      obtain ⟨hobjects,hlinks⟩ := hX'.unique hwrote.entry
      rw [show X' = R from Prod.ext hobjects hlinks,hitem,hsame] at hwrote'
      have hanswer : a = some r.result.joinedName :=
        (ApplyUpperLimit.answer_of_replay ha).trans (congrArg some hsame)
      exact ⟨hvacant,hanswer,_,hwrote.again hwrote',
        describes_enforced hX.named (h.new hq).1 hR hmax⟩
    · rw [hname] at hlost
      exact absurd hwrote.entry.mem_keys hlost

/-- The entry of the composite vertex gives way to one that has a match for each of its matches with a
number of objects that the annotation admits, these objects, and the links to them. The replays fail
in one case only: the name of the result clashes in the registry. -/
theorem replay_enforces (hw : w.Sound) (hs : w.store.Keyed) (hq : r.before.WellFormed)
    (hi : r.application.items = v :: e :: u :: rest) (h : Hangs r.before v e u x y z ends t b)
    (hX : Tabled w x X) (hr : absorbAnnotatedVertex.Performed r q)
    (hl : b.max.isSome = true → l.before = q ∧ l.application.items = v :: rest' ∧
      ∃ q', applyUpperLimit.Performed l q') :
    (Vacant w r x → (z.joinedName ∉ x.names ∧ y.joinedName ∉ x.names) ∧ ∃ w' X',
      enforcing r l b w = .ok (some r.result.joinedName) w' ∧
      w.Wrote [x.joinedName] r.result.joinedName X'.1 X'.2 w' ∧
      Describes X' {g | g ∈ numbers X ∧
          b.admits (w.store.instancesAt y ends t z.condition (bound X g)).ncard = true}
        fun g => w.store.absorbing y z ends t (bound X g)) ∧
    (¬Vacant w r x → ∃ err w', enforcing r l b w = .error err w') := by
  have houtcome := outcome_enforcing hw hs hq hi h hX hr hl
  rw [Outcome] at houtcome
  split at houtcome
  · rename_i a w' ha
    obtain ⟨hvacant,rfl,R,hwrote,hR⟩ := houtcome
    exact ⟨fun _ => ⟨h.new hq,w',R,ha,hwrote,hR⟩,fun hn => absurd hvacant hn⟩
  · rename_i err w' ha
    exact ⟨fun hvacant => absurd hvacant houtcome,fun _ => ⟨err,w',ha⟩⟩

/-- A composite vertex from which an annotated vertex hangs by an edge that allows no less than two
links. -/
def suspending : List Edit :=
  [.addVertex .root ⟨.bare ["A","D","g"] (.vertex true []),
      @Item.Made.composite ["A","D","g"] _ rfl⟩,
    .addVertex .root ⟨{ Item.bare ["E"] (.vertex false []) with bounds := some ⟨some 1,some 2⟩ },
      .bounds _ (@Item.Made.vertex "E" _ rfl)⟩,
    .addEdge .root ⟨{ Item.bare ["h"] (.edge ⟨none,none,"E","D",false⟩) with
      bounds := some ⟨some 2,none⟩ },.bounds _ (@Item.Made.edge "h" "E" "D" false _ rfl)⟩]

/-- The annotated vertex is absorbed. -/
def embracing : Replay where
  before := (Query.bare "q" "").edited suspending
  application := ⟨[⟨0⟩,⟨2⟩,⟨1⟩],["A.D.g","h","E"],none⟩
  result := ⟨"A.D.E.g.h",["A","D","E","g","h"]⟩

/-- Its upper bound is enforced. -/
def limiting : Replay where
  before := (Query.bare "q" "").edited (suspending ++
    [.absorb ⟨2⟩ ⟨1⟩,.addNames ⟨0⟩ ["E","h"],.setProvenance ⟨0⟩ (some ⟨"E","E",some 2⟩)])
  application := ⟨[⟨0⟩],["A.D.E.g.h"],none⟩
  result := ⟨"A.D.E.g.h",["A","D","E","g","h"]⟩

/-- Matches with one object that two links join, with three of them, with one link only, without an
object at the end of the edge, and with a link but no object. -/
def strung : Workspace where
  store := { Store.empty with
    created := 2
    tables := ⟨[(⟨1⟩,⟨Column.matched,[⟨5,1,"A"⟩,⟨1,1,"D"⟩,⟨2,2,"D"⟩,⟨6,3,"D"⟩,⟨3,4,"A"⟩].map
        MatchRow.cells⟩),
      (⟨2⟩,⟨Column.matched,[⟨9,1,"g"⟩,⟨9,7,"g"⟩].map MatchRow.cells⟩)]⟩
    objects := ⟨[(1,.empty),(2,.empty),(3,.empty),(4,.empty),(5,.empty),(6,.empty)]⟩
    links := ⟨[(11,⟨3,1,.empty⟩),(12,⟨1,3,.empty⟩),(13,⟨3,2,.empty⟩),(14,⟨3,2,.empty⟩),
      (15,⟨2,4,.empty⟩),(16,⟨4,2,.empty⟩),(17,⟨5,2,.empty⟩),(18,⟨5,2,.empty⟩),
      (19,⟨6,1,.empty⟩)]⟩ }
  registry := ⟨[("A.D.g",⟨⟨1⟩,⟨2⟩⟩)]⟩
  scratch := []

theorem sound_strung : strung.Sound := sound_of_entries (by decide) (by decide)

theorem performed_embracing : absorbAnnotatedVertex.Performed embracing limiting.before :=
  ⟨⟨0⟩,rfl,rfl⟩

theorem performed_limiting : ∃ q, applyUpperLimit.Performed limiting q := ⟨_,⟨0⟩,rfl,rfl⟩

/-- Links count in both directions. The upper bound drops the second match, the lower bound the third
and the fourth. -/
theorem replay_enforces_strung : embracing.before.WellFormed ∧ strung.Sound ∧
    ∃ w', ∃ X' : Rows × Rows,
      enforcing embracing limiting ⟨some 1,some 2⟩ strung = .ok (some "A.D.E.g.h") w' ∧
      strung.Wrote ["A.D.g"] "A.D.E.g.h" X'.1 X'.2 w' ∧ w'.registry.keys = ["A.D.E.g.h"] ∧
      X'.1 = [⟨5,1,"A"⟩,⟨1,1,"D"⟩,⟨3,1,"E"⟩].map MatchRow.cells ∧
      X'.2 = [⟨9,1,"g"⟩,⟨11,1,"h"⟩,⟨12,1,"h"⟩].map MatchRow.cells := by
  have hq : embracing.before.WellFormed := ((Query.wellFormed_bare "q" "").edited _).1
  have hhangs : Hangs embracing.before ⟨0⟩ ⟨2⟩ ⟨1⟩
      { Item.bare ["A","D","g"] (.vertex true [⟨2⟩]) with container := some .root }
      { Item.bare ["h"] (.edge ⟨some ⟨1⟩,some ⟨0⟩,"E","D",false⟩) with
        bounds := some ⟨some 2,none⟩, container := some .root }
      { Item.bare ["E"] (.vertex false [⟨2⟩]) with
        bounds := some ⟨some 1,some 2⟩, container := some .root }
      ⟨some ⟨1⟩,some ⟨0⟩,"E","D",false⟩ true ⟨some 1,some 2⟩ :=
    ⟨rfl,rfl,rfl,rfl,rfl,rfl,rfl,by decide,by decide⟩
  have hX := tabled_of_cells (w:=strung) (x:={ Item.bare ["A","D","g"] (.vertex true [⟨2⟩]) with
    container := some .root }) rfl ⟨_,rfl,rfl,rfl⟩ (by decide) (by decide) (by decide)
  obtain ⟨w',X',hw',hwrote⟩ : ∃ w', ∃ X' : Rows × Rows,
      enforcing embracing limiting ⟨some 1,some 2⟩ strung = .ok (some "A.D.E.g.h") w' ∧
        strung.Wrote ["A.D.g"] "A.D.E.g.h" X'.1 X'.2 w' := by
    obtain ⟨-,w',X',hw',hwrote,-⟩ := (replay_enforces (r:=embracing) (l:=limiting) sound_strung
      ⟨by decide,by decide⟩ hq rfl hhangs hX performed_embracing
      fun _ => ⟨rfl,rfl,performed_limiting⟩).1 fun hm => absurd hm (by decide)
    exact ⟨w',X',hw',hwrote⟩
  refine ⟨hq,sound_strung,w',X',hw',hwrote,hwrote.keys.trans (by decide),?_⟩
  have hend : rowsAfter? (enforcing embracing limiting ⟨some 1,some 2⟩) strung "A.D.E.g.h" =
      some (some ([⟨5,1,"A"⟩,⟨1,1,"D"⟩,⟨3,1,"E"⟩].map MatchRow.cells),
        some ([⟨9,1,"g"⟩,⟨11,1,"h"⟩,⟨12,1,"h"⟩].map MatchRow.cells)) := by decide +kernel
  rw [hwrote.entry.rowsAfter?_eq hw'] at hend
  simpa using hend

end AbsorbAnnotatedVertex

end Rule

end GraphPattern
