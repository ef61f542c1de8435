import GraphPattern.Proofs.Execution.Effect
import GraphPattern.Proofs.Rule.Lineal

/-!
# What a step makes of the entries

A step that is replayed writes at most the entry of the vertex that comes out. What it writes is
made of the matches of the vertices to which its rule is applied, and these are in the entries, or
are the objects that match a plain vertex. So whatever is known of the entries is known after the
step as well, if it holds of what the rule makes.
-/

namespace GraphPattern

open Matches Rule Step Workspace

/-- Something is known of the matches in the entries of composite vertices. -/
def Query.Entries (q : Query) (w : Workspace) (R : ItemId → Rows × Rows → Prop) : Prop :=
  ∀ v x (X : Rows × Rows), q.item? v = some x → x.kind = .composite →
    w.Entry x.joinedName X.1 X.2 → R v X

namespace Rule

variable (q : Query) (s : Store) (R : ItemId → Rows × Rows → Prop) (a : Application)
  (out : ItemId)

/-- What a rule makes of matches of which something is known, when it is applied to a query. The
marker of the vertex that comes out is that of an upper bound that is still owed. -/
inductive Makes : Rule → Option Provenance → Rows × Rows → Prop
  /-- The objects that match a plain vertex. -/
  | getVertex {v : ItemId} {x : Item} (items : a.items = [v]) (settles : a.constraint = none)
    (live : q.item? v = some x) (kind : x.kind = .vertex) (bounds : x.bounds = none) :
    Makes getVertex none (ofObjects s x.condition x.joinedName,[])
  /-- The matches with a self-loop, and its links. -/
  | absorbSelfLoop {e : ItemId} {x y : Item} {ends : EdgeEnds} {X : Rows × Rows}
    (items : a.items = [out,e]) (settles : a.constraint = none) (live : q.item? out = some x)
    (settled : Settled x) (edge : q.item? e = some y) (ended : y.ends? = some ends)
    (loop : ∀ t, q.Ends e t out) (bounds : y.bounds = none) (given : R out X) :
    Makes absorbSelfLoop none (AbsorbSelfLoop.result (s.linkRows y.condition) y ends X)
  /-- The matches of two vertices that enough links join, together, and the links. -/
  | collapseEdge {e u : ItemId} {x y z : Item} {ends : EdgeEnds} {t : Bool} {X Z : Rows × Rows}
    (items : a.items = [out,e,u]) (settles : a.constraint = none) (live : q.item? out = some x)
    (settled : Settled x) (edge : q.item? e = some y) (ended : y.ends? = some ends)
    (absorbed : q.item? u = some z) (settled' : Settled z) (near : q.Ends e t out)
    (far : q.Ends e (!t) u) (ne : out ≠ u) (together : q.itemOwner out = q.itemOwner u)
    (given : R out X) (given' : R u Z) :
    Makes collapseEdge none (CollapseEdge.result (s.linkRows y.condition) x y ends X Z)
  /-- The matches that enough links join to enough matches of an annotated vertex, and these. -/
  | absorbAnnotatedVertex {e u : ItemId} {x y z : Item} {ends : EdgeEnds} {b : Annotation}
    {t : Bool} {marker : Option Provenance} {X Z : Rows × Rows} (items : a.items = [out,e,u])
    (settles : a.constraint = none) (live : q.item? out = some x) (settled : Settled x)
    (edge : q.item? e = some y) (ended : y.ends? = some ends) (absorbed : q.item? u = some z)
    (bounds : z.bounds = some b) (absorbs : q.Absorbs out e t u)
    (owed : marker.map Provenance.item = if b.max.isSome then some (ends.nameAt t) else none)
    (given : R out X) (given' : z.kind = .composite → R u Z)
    (plain : z.kind ≠ .composite → Z = (ofObjects s z.condition z.firstName,[])) :
    Makes absorbAnnotatedVertex marker
      (AbsorbAnnotatedVertex.result (s.linkRows y.condition) x y z ends X Z)
  /-- The matches that respect an upper bound. -/
  | applyUpperLimit {x : Item} {m : Provenance} {most : Nat} {X : Rows × Rows}
    (items : a.items = [out]) (settles : a.constraint = none) (live : q.item? out = some x)
    (kind : x.kind = .composite) (bounds : x.bounds = none) (marked : x.provenance = some m)
    (limited : m.max = some most) (given : R out X) :
    Makes applyUpperLimit none (ApplyUpperLimit.result m.item most X)
  /-- The same matches. -/
  | eliminateSubquery {x : Item} {X : Rows × Rows} (items : a.items = [out])
    (settles : a.constraint = none) (live : q.item? out = some x) (settled : Settled x)
    (given : R out X) : Makes eliminateSubquery none X
  /-- The matches that satisfy a constraint. -/
  | processConstraint {x : Item} {k : Constraint} {c : ContainerId}
    {operator : Comparison} {X : Rows × Rows} (items : a.items = [out]) (settles : a.constraint = some k)
    (live : q.item? out = some x) (settled : Settled x) (declared : k ∈ q.declared c)
    (inside : ∀ n ∈ k.itemNames, n ∈ q.itemNames out)
    (named : Comparison.ofKeyword? k.operator = some operator) (binary : operator.isBinary = true)
    (given : R out X) : Makes processConstraint none (ProcessConstraint.result s k operator X)

end Rule

namespace Query

variable {q q' : Query} {out : ItemId} {rule : Rule} {a : Application} {s : Store}
  {w : Workspace} {y : Item} {R S : ItemId → Rows × Rows → Prop}

/-- What no marker is put on owes nothing. -/
theorem unmarked_out (h : q.WellFormed) (hr : Reduction q rule a q' out)
    (hy : q'.item? out = some y) (hi : ∀ e u w, a.items = [out,e,u] → q.item? u = some w →
      w.bounds = none) : y.provenance = none := by
  by_contra hm
  obtain ⟨m,hm⟩ := Option.ne_none_iff_exists'.mp hm
  obtain ⟨e,u,-,-,w,-,b,-,-,hitems,-,-,-,hw,hb,-⟩ := hr.marking h hy hm
  rw [hi e u w hitems hw] at hb
  cases hb

/-- What a composite vertex supplies is in its entry. -/
theorem Entries.given {v : ItemId} {x : Item} {X : Rows × Rows} (hR : q.Entries w R)
    (hx : q.item? v = some x) (hk : x.kind = .composite) (hX : w.Supplies x X) : R v X := by
  have hcomposite : x.isComposite = true := decide_eq_true hk
  rw [Supplies,if_pos hcomposite] at hX
  exact hR v x X hx hk hX

/-- What a plain vertex supplies are the objects that match it. -/
theorem ofObjects_of_supplies {x : Item} {X : Rows × Rows} (ho : w.store.objects = s.objects)
    (hk : x.kind ≠ .composite) (hX : w.Supplies x X) :
    X = (ofObjects s x.condition x.firstName,[]) := by
  have hplain : ¬x.isComposite = true := fun hcomposite => hk (of_decide_eq_true hcomposite)
  rw [Supplies,if_neg hplain,ofObjects_congr ho] at hX
  exact hX

/-- The marker of a vertex that absorbs another one is put under the name that the edge has for it. -/
theorem owed_marking (h : q.Reducible) {e u v : ItemId} {x z : Item} {ends : EdgeEnds} {t : Bool}
    {b : Annotation} {marker : Option Provenance} (hx : q.item? e = some x)
    (he : x.ends? = some ends) (hz : q.item? u = some z) (ha : q.Absorbs v e t u)
    (hmarking : marker = b.max.bind fun max =>
      (ends.nameAmong? z.names).map fun name => ⟨z.joinedName,name,some max⟩) :
    marker.map Provenance.item = if b.max.isSome then some (ends.nameAt t) else none := by
  have hname := h.nameAmong_eq hx he ha.far ha.near ha.ne
  rw [itemNames_of_some hz] at hname
  rw [hmarking,hname]
  cases b.max <;> rfl

/-- Entries beside that of the vertex that comes out are old ones. -/
theorem Entries.carried {w' : Workspace} (hR : q.Entries w R) (hc : Changes q q' a.items out)
    (hy : q'.item? out = some y)
    (hapart : ∀ {j z}, q'.item? j = some z → z.kind = .composite →
      z.joinedName = y.joinedName → j = out)
    (hkeep : ∀ v x X, q.item? v = some x → v ∉ a.items → R v X → S v X)
    (hothers : ∀ {n O L}, n ≠ y.joinedName → w'.Entry n O L → w.Entry n O L)
    (hout : ∀ {X : Rows × Rows}, w'.Entry y.joinedName X.1 X.2 → S out X) : q'.Entries w' S := by
  intro v z Z hz hk hZ
  by_cases hv : v = out
  · subst hv
    rw [hy] at hz
    cases hz
    exact hout hZ
  · obtain ⟨hm,x,hx,hf⟩ := hc.back hz hv
    have hname : z.joinedName = x.joinedName := by rw [Item.joinedName,Item.joinedName,hf.names]
    have hX := hothers (fun he => hv (hapart hz hk he)) hZ
    rw [hname] at hX
    exact hkeep v x Z hx hm (hR v x Z hx (hf.kind ▸ hk) hX)

/-- What is written is known if it is what the rule makes. -/
theorem Entries.written {w' : Workspace} {taken : List String} {X : Rows × Rows}
    (hR : q.Entries w R) (hc : Changes q q' a.items out) (hy : q'.item? out = some y)
    (hapart : ∀ {j z}, q'.item? j = some z → z.kind = .composite →
      z.joinedName = y.joinedName → j = out)
    (hkeep : ∀ v x X, q.item? v = some x → v ∉ a.items → R v X → S v X)
    (hw' : Wrote w taken y.joinedName X.1 X.2 w') (hX : S out X) : q'.Entries w' S := by
  refine hR.carried hc hy hapart hkeep (fun hne hZ => ((hw'.others hne).mp hZ).2) fun {Z} hZ => ?_
  obtain ⟨hO,hL⟩ := hZ.unique hw'.entry
  exact (Prod.ext hO hL : Z = X) ▸ hX

/-- A reduction that is replayed keeps what is known of the entries. -/
theorem Entries.step (h : q.Reducible) (hr : Reduction q rule a q' out) {result : ResultVertex}
    (hy : q'.item? out = some y) (hresult : result.joinedName = y.joinedName)
    (hapart : ∀ {j z}, q'.item? j = some z → z.kind = .composite →
      z.joinedName = y.joinedName → j = out)
    (hlimited : ∀ {i z m}, q.item? i = some z → z.provenance = some m → m.max.isSome = true)
    (hdecided : ∀ {c k}, k ∈ q.declared c → k.Decided) (hw : w.Sound)
    (ho : w.store.objects = s.objects) (hl : w.store.links = s.links) (hR : q.Entries w R)
    (hkeep : ∀ v x X, q.item? v = some x → v ∉ a.items → R v X → S v X)
    (hmake : ∀ X, Makes q s R a out rule y.provenance X → S out X) :
    Outcome (rule.replay ⟨q,a,result⟩) w (fun _ w' => q'.Entries w' S) True := by
  have hc := hr.changes h.wellFormed
  have hunmarked := unmarked_out h.wellFormed hr hy
  have hmerges := hr.merges h.wellFormed
  have hwrote : ∀ {taken w'} {X : Rows × Rows}, Wrote w taken result.joinedName X.1 X.2 w' →
      Makes q s R a out rule y.provenance X → q'.Entries w' S := fun hw' hX =>
    hR.written hc hy hapart hkeep (hresult ▸ hw') (hmake _ hX)
  cases hr with
  | @getVertex v x edges c live kind bounds listed owner unmarked =>
    refine (GetVertex.outcome_replay (r:=⟨q,_,result⟩) hw rfl live).imp (fun _ w' hw' => ?_)
      fun _ => trivial
    obtain ⟨-,hw'⟩ := hw'
    rw [ofObjects_congr ho] at hw'
    refine hwrote (X:=(_,_)) hw' ?_
    rw [hunmarked (fun e u w hi => by cases hi)]
    exact .getVertex rfl rfl live kind bounds
  | @absorbSelfLoop _ e x y' ends c live settled edge ended loop owner bounds unmarked =>
    refine (AbsorbSelfLoop.outcome_replay (r:=⟨q,_,result⟩) hw rfl live edge ended).imp
      (fun _ w' hw' => ?_) fun _ => trivial
    obtain ⟨-,X,hX,hw'⟩ := hw'
    rw [PlanStep.linkRows_eq hl] at hw'
    refine hwrote hw' ?_
    rw [hunmarked fun e u w hi => by cases hi]
    refine .absorbSelfLoop rfl rfl live settled edge ended (fun t => ⟨y',ends,edge,ended,?_⟩) bounds
      (hR.given live settled.kind hX)
    cases t
    · exact loop.2
    · exact loop.1
  | @collapseEdge _ e u x y' z ends edges c d able settled settled' unmarked together =>
    refine (CollapseEdge.outcome_replay (r:=⟨q,_,result⟩) hw rfl able.kept able.edge able.absorbed
      able.ended).imp (fun _ w' hw' => ?_) fun _ => trivial
    obtain ⟨-,X,Z,hX,hZ,hw'⟩ := hw'
    rw [PlanStep.linkRows_eq hl] at hw'
    refine hwrote hw' ?_
    rw [hunmarked fun e' u' w hi hw => by
      cases hi
      rw [able.absorbed] at hw
      cases hw
      exact settled'.bounds]
    obtain ⟨t,hfar,hnear⟩ := absorbable_ends able
    refine .collapseEdge rfl rfl able.kept settled able.edge able.ended able.absorbed settled' hnear
      (by rwa [Bool.not_not]) able.ne ?_ (hR.given able.kept settled.kind hX)
      (hR.given able.absorbed settled'.kind hZ)
    rw [itemOwner_of_some able.kept,itemOwner_of_some able.absorbed,together]
  | @absorbAnnotatedVertex _ e u x y' z ends c d b marker able settled bounds annotated unmarked
      unmarked' together marking marked =>
    refine (AbsorbAnnotatedVertex.outcome_replay (r:=⟨q,_,result⟩) hw rfl able.kept able.edge
      able.absorbed able.ended).imp (fun _ w' hw' => ?_) fun _ => trivial
    obtain ⟨-,X,Z,hX,hZ,hw'⟩ := hw'
    rw [PlanStep.linkRows_eq hl] at hw'
    refine hwrote hw' ?_
    obtain ⟨t,ha⟩ := hmerges.absorbs_last (by
      rw [itemBounds_of_some able.absorbed,bounds]
      exact Option.some_ne_none b)
    rw [item?_mapItem,if_pos rfl] at hy
    obtain ⟨x',-,rfl⟩ := Option.map_eq_some_iff.mp hy
    exact .absorbAnnotatedVertex rfl rfl able.kept settled able.edge able.ended able.absorbed bounds
      ha (owed_marking h able.edge able.ended able.absorbed ha marking)
      (hR.given able.kept settled.kind hX) (fun hk => hR.given able.absorbed hk hZ)
      fun hk => ofObjects_of_supplies ho hk hZ
  | @applyUpperLimit _ x marker live kind bounds marked =>
    obtain ⟨most,hmost⟩ := Option.isSome_iff_exists.mp (hlimited live marked)
    refine (ApplyUpperLimit.outcome_replay (r:=⟨q,_,result⟩) hw rfl live marked hmost).imp
      (fun _ w' hw' => ?_) fun _ => trivial
    obtain ⟨-,X,hX,hw'⟩ := hw'
    refine hwrote hw' ?_
    rw [hunmarked (fun e u w hi => by cases hi)]
    exact .applyUpperLimit rfl rfl live kind bounds marked hmost (hR _ _ X live kind hX)
  | @eliminateSubquery _ x S p C live settled owner inner parent alone =>
    refine .of_ok (t:=w) rfl (hR.carried hc hy hapart hkeep (fun _ hX => hX) fun {X} hX =>
      hmake X ?_)
    rw [hunmarked (fun e u w hi => by cases hi)]
    rw [item?_mapItem,if_pos rfl,item?_flattened_inside h.wellFormed inner live owner] at hy
    rw [← Option.some_inj.mp hy] at hX
    exact .eliminateSubquery rfl rfl live settled (hR _ _ X live settled.kind hX)
  | @processConstraint _ x k found c C rest live settled declared bounds inside owner first carried =>
    obtain ⟨d,D',hd,hk⟩ := exists_container_of_mem declared
    have hkd : k ∈ q.declared d := mem_declared.mpr ⟨D',hd,hk⟩
    have hk := hdecided hkd
    obtain ⟨operator,hoperator,hbinary⟩ := hk.binary
    refine (ProcessConstraint.outcome_replay (r:=⟨q,_,result⟩) hw rfl hoperator hbinary
      hk.item).imp (fun _ w' hw' => ?_) fun _ => trivial
    obtain ⟨-,X,hX,hw'⟩ := hw'
    rw [PlanStep.processConstraint_eq ho hl] at hw'
    refine hwrote hw' ?_
    rw [hunmarked (fun e u w hi => by cases hi)]
    rw [item?_mapContainer,live] at hy
    rw [show ResultVertex.joinedName _ = y.joinedName from hresult,← Option.some_inj.mp hy] at hX
    refine .processConstraint rfl rfl live settled hkd ?_ hoperator hbinary
      (hR _ _ X live settled.kind hX)
    rw [itemNames_of_some live]
    exact inside

end Query

end GraphPattern
