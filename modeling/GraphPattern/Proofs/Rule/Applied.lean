import GraphPattern.Proofs.Rule.Changes

/-!
# Carrying reductions out

What a rule answers when it is applied is the reduction that it stands for, and plans can be made of
the query that comes out.
-/

namespace GraphPattern.Rule

open Query Step

theorem ofEdit_eq_ok {q q' : Query} {edit : QueryEdit ItemId} {out : ItemId} :
    Reduced.ofEdit q edit = .ok ⟨q',out⟩ ↔ edit q = .ok out q' := by
  rw [Reduced.ofEdit,EStateM.run]
  cases edit q with
  | ok i q'' => simp only [Except.ok.injEq,Reduced.mk.injEq,EStateM.Result.ok.injEq,and_comm]
  | error err q'' => simp only [reduceCtorEq]

/-- The vertex that a reduction answers with has the name of the result. -/
theorem exists_output {q : Query} {out : ItemId} {result : ResultVertex}
    (h : Reduced.result ⟨q,out⟩ = .ok result) :
    ∃ x, q.item? out = some x ∧ x.joinedName = result.joinedName := by
  obtain ⟨x,hx,h⟩ := except_bind_eq_ok.mp h
  cases h
  exact ⟨x,item?_of_item hx,rfl⟩

/-- The marker for the upper bound of an annotated vertex is made if the edge names the vertex. -/
theorem marker_ok {q : Query} {e : ItemId} {y w : Item} {ends : EdgeEnds} {a : Annotation}
    {marker : Option Provenance} (hy : q.item? e = some y) (he : y.ends? = some ends)
    (hw : w.WellNamed) (hb : w.bounds = some a)
    (hm : marker = a.max.bind fun max =>
      (ends.nameAmong? w.names).map fun name => ⟨w.joinedName,name,some max⟩)
    (hs : marker.isSome = a.max.isSome) : AbsorbAnnotatedVertex.marker q e w = .ok marker := by
  rw [AbsorbAnnotatedVertex.marker,hb,Option.bind_some]
  cases hmax : a.max with
  | none =>
    rw [hmax] at hm
    rw [hm]
    rfl
  | some max =>
    rw [hmax,Option.bind_some] at hm
    rw [hmax,hm,Option.isSome_map] at hs
    obtain ⟨name,hname⟩ := Option.isSome_iff_exists.mp hs
    have hmem := EdgeEnds.nameAmong?_mem hname
    have hproper : ¬(w.joinedName = "" || name = "") = true := by
      simp only [Bool.or_eq_true,decide_eq_true_eq,not_or]
      exact ⟨hw.joinedName_ne,fun he => hw.proper (he ▸ hmem)⟩
    simp only [item_of_some hy,ok_bind,he,Option.bind_some,hname,Provenance.ofNames,hproper,
      except_pure,hm,Option.map_some]
    rfl

/-- A composite vertex that absorbs another one takes the names of that one and of the edge. -/
theorem absorb_joined {q : Query} (h : q.WellFormed) {e old new : ItemId} {x u w : Item}
    {ends : EdgeEnds} {edges moved : List ItemId} {c d : ContainerId}
    (ha : q.Absorbable e old new x u w ends edges c d) (hm : edges.filter (· ≠ e) = moved)
    (hk : w.kind = .composite) :
    ∃ z, (q.withAbsorbed c d e ends old new moved).item? new = some z ∧ z.SameButIncidence w ∧
      absorb e old q = .ok () (q.withAbsorbed c d e ends old new moved) ∧
      addNames new (u.names ++ x.names) (q.withAbsorbed c d e ends old new moved) =
        .ok () ((q.withAbsorbed c d e ends old new moved).mapItem new
          (Item.joinNames (u.names ++ x.names))) ∧
      ((q.withAbsorbed c d e ends old new moved).mapItem new
        (Item.joinNames (u.names ++ x.names))).WellFormed := by
  subst hm
  obtain ⟨z,hz,hsame⟩ := (ha.leaves h).kept
  have hx := h.named.named ha.edge
  have hu := h.named.named ha.absorbed
  exact ⟨z,hz,hsame,absorb_ok h ha,addNames_join (h.withAbsorbed ha) hz (hsame.kind.trans hk)
    (List.append_ne_nil_of_left_ne_nil hu.nonempty x.names)
    (fun hm => (List.mem_append.mp hm).elim hu.proper hx.proper)
    ((ha.leaves h).free h.named ha.edge ha.absorbed)⟩

/-- A composite vertex without a marker can be given one, or is left without one. -/
theorem mark_ok {q : Query} {v : ItemId} {z : Item} {f : Item → Item} (hz : q.item? v = some z)
    (hk : (f z).kind = .composite) (hp : (f z).provenance = none) (marker : Option Provenance) :
    (if marker.isSome = true then setProvenance v marker >>= fun _ => pure v else pure v)
        (q.mapItem v f) =
      .ok v (q.mapItem v fun z => { f z with provenance := marker }) := by
  cases marker with
  | none => exact (pure_apply _ _).trans (congrArg _ (mapItem_congr hz (by rw [← hp])))
  | some m =>
    have hfz : (q.mapItem v f).item? v = some (f z) := by
      rw [item?_mapItem,if_pos rfl,hz]
      rfl
    have hset : (f z).withProvenance (some m) = .ok { f z with provenance := some m } :=
      withProvenance_eq_ok.mpr ⟨fun hn => absurd (hk ▸ hn.2) (by decide),rfl⟩
    rw [Option.isSome_some,if_pos rfl,bind_of_ok (setProvenance_ok hfz hset),pure_apply,
      mapItem_mapItem]
    exact congrArg _ (mapItem_congr hz rfl)

/-- A reduction is what the rule answers when it is applied, and the query stays well formed. -/
theorem Reduction.applied {q q' : Query} {rule : Rule} {a : Application} {v : ItemId}
    (h : q.WellFormed) (hr : Reduction q rule a q' v) :
    rule.apply q a = .ok ⟨q',v⟩ ∧ q'.WellFormed := by
  cases hr with
  | @getVertex u x edges c live kind bounds listed owner unmarked =>
    have hw := h.named.named live
    have hn : Item.newComposite x.names = .ok (Item.bare (orderedSet x.names) (.vertex true [])) :=
      newComposite_eq_ok.mpr ⟨hw.nonempty,hw.proper,rfl⟩
    have hf : q.Free (Item.bare (orderedSet x.names) (.vertex true [])).names (some u) :=
      fun i z hz hi n hm hz' =>
        hi (congrArg some (h.named.disjoint hz live hz' (mem_orderedSet.mp hm)))
    have hnamed : (Item.bare (orderedSet x.names) (.vertex true [])).WellNamed :=
      (Item.Made.composite hn).detached.named
    refine ⟨?_,h.withReplaced rfl hnamed live listed owner hf⟩
    change (GetVertex.apply q _) = _
    simp only [GetVertex.apply,Application.item,List.getElem?_cons_zero,except_pure,ok_bind,
      item_of_some live,hn]
    exact ofEdit_eq_ok.mpr (replaceVertex_ok h rfl rfl live listed owner hf)
  | @absorbSelfLoop _ e x y ends c live settled edge ended loop owner bounds unmarked =>
    have hne : v ≠ e := ne_of_ends edge ended live (Item.isVertex_of_kind (.inr settled.kind))
    have hw := h.withoutEdge edge ended owner
    have hv : (q.withoutEdge c e ends).item? v = some (x.detach e) := by
      rw [item?_withoutEdge,if_neg hne,live,Option.map_some,if_pos (.inl loop.1)]
    have hsame := Item.sameButIncidence_detach e x
    have hy := h.named.named edge
    have hf : (q.withoutEdge c e ends).Free y.names (some v) := by
      intro i z hz hi n hn hm
      rw [item?_withoutEdge] at hz
      split at hz
      · cases hz
      · rename_i hie
        obtain ⟨z₀,hz₀,rfl⟩ := Option.map_eq_some_iff.mp hz
        refine hie (h.named.disjoint hz₀ edge ?_ hn)
        split at hm
        · exact (Item.sameButIncidence_detach e z₀).names ▸ hm
        · exact hm
    obtain ⟨hadd,hq⟩ := addNames_join hw hv (hsame.kind.trans settled.kind) hy.nonempty hy.proper hf
    refine ⟨?_,hq⟩
    change (AbsorbSelfLoop.apply q _) = _
    simp only [AbsorbSelfLoop.apply,Application.item,List.getElem?_cons_zero,
      List.getElem?_cons_succ,except_pure,ok_bind]
    refine ofEdit_eq_ok.mpr ?_
    rw [bind_of_ok (removeEdge_ok h edge ended owner),bind_of_ok hadd]
    rfl
  | @collapseEdge _ e u x y w ends edges c d able settled settled' unmarked together =>
    obtain ⟨-,-,-,habsorb,hadd,hq⟩ := absorb_joined h able rfl settled.kind
    refine ⟨?_,hq⟩
    change (CollapseEdge.apply q _) = _
    simp only [CollapseEdge.apply,Application.item,List.getElem?_cons_zero,
      List.getElem?_cons_succ,except_pure,ok_bind,item_of_some able.absorbed,
      item_of_some able.edge]
    refine ofEdit_eq_ok.mpr ?_
    rw [bind_of_ok habsorb,bind_of_ok hadd]
    rfl
  | @absorbAnnotatedVertex _ e u x y w ends c d a marker able settled bounds annotated unmarked
      unmarked' together marking marked =>
    obtain ⟨z,hz,hsame,habsorb,hadd,hq⟩ := absorb_joined h able (filter_ne_alone e) settled.kind
    have hmark := hq.mapItem (f:=fun z => { z with provenance := marker }) (i:=v)
      fun _ _ => ⟨rfl,rfl,rfl⟩
    rw [mapItem_mapItem] at hmark
    refine ⟨?_,hmark⟩
    change (AbsorbAnnotatedVertex.apply q _) = _
    simp only [AbsorbAnnotatedVertex.apply,Application.item,List.getElem?_cons_zero,
      List.getElem?_cons_succ,except_pure,ok_bind,item_of_some able.absorbed,
      item_of_some able.edge,
      marker_ok able.edge able.ended (h.named.named able.absorbed) bounds marking marked]
    refine ofEdit_eq_ok.mpr ?_
    rw [bind_of_ok habsorb,bind_of_ok hadd]
    exact mark_ok hz (hsame.kind.trans settled.kind) (hsame.provenance.trans settled.provenance)
      marker
  | @applyUpperLimit _ x marker live kind bounds marked =>
    have hy : x.withProvenance none = .ok { x with provenance := none } :=
      withProvenance_eq_ok.mpr ⟨fun hn => Bool.false_ne_true hn.1,rfl⟩
    refine ⟨?_,h.mapItem fun _ _ => ⟨rfl,rfl,rfl⟩⟩
    change (ApplyUpperLimit.apply q _) = _
    simp only [ApplyUpperLimit.apply,Application.item,List.getElem?_cons_zero,except_pure,ok_bind]
    refine ofEdit_eq_ok.mpr ?_
    rw [bind_of_ok (setProvenance_ok live hy),pure_apply]
    exact congrArg _ (mapItem_congr live rfl)
  | @eliminateSubquery _ x s p S live settled owner inner parent alone =>
    have hv := item?_flattened_inside (p:=p) h inner live owner
    refine ⟨?_,(h.flattened inner parent).mapItem fun _ _ => ⟨rfl,rfl,rfl⟩⟩
    change (EliminateSubquery.apply q _) = _
    simp only [EliminateSubquery.apply,Application.item,List.getElem?_cons_zero,except_pure,
      ok_bind,item_of_some live,owner,container_of_some inner]
    refine ofEdit_eq_ok.mpr ?_
    rw [bind_of_ok (flatten_ok h inner parent),bind_of_ok (setBounds_ok hv S.bounds)]
    rfl
  | @processConstraint _ x k found c C rest live settled declared bounds inside owner first carried =>
    refine ⟨?_,h.putContainer owner ⟨rfl,rfl,rfl⟩⟩
    change (ProcessConstraint.apply q _) = _
    simp only [ProcessConstraint.apply,Application.item,List.getElem?_cons_zero,except_pure,
      ok_bind,Application.settled]
    exact ofEdit_eq_ok.mpr ((bind_of_ok carried _).trans rfl)

/-- The rules can work on the query that comes out. -/
theorem Reduction.reducible {q q' : Query} {rule : Rule} {a : Application} {v : ItemId}
    (h : q.Reducible) (hr : Reduction q rule a q' v) : q'.Reducible :=
  (hr.changes h.wellFormed).reducible h (hr.applied h.wellFormed).2

/-- A reduction is what the rule carries out, and plans can be made of the query that comes out. -/
theorem Reduction.carriedOut {q q' : Query} {rule : Rule} {a : Application} {v : ItemId}
    (h : q.Plannable) (hr : Reduction q rule a q' v) :
    rule.apply q a = .ok ⟨q',v⟩ ∧ q'.Plannable ∧ (q'.item? v).isSome = true := by
  obtain ⟨happ,hq⟩ := hr.applied h.wellFormed
  have hc := hr.changes h.wellFormed
  obtain ⟨y,hy,-⟩ := hc.out
  exact ⟨happ,hc.plannable h hq,by rw [hy]; rfl⟩

end GraphPattern.Rule
