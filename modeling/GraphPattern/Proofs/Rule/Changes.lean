import GraphPattern.Proofs.Rule.Reduction

/-!
# What reductions change

A reduction is about some items of a query. One vertex comes out of it, which has the names of all
of them; the others of these items are gone. Every other item stays what it is, and an edge that
ended at one of the vertices ends at the vertex that came out.
-/

namespace GraphPattern

/-- The ends after some vertices were merged into one. -/
def EdgeEnds.follow (items : List ItemId) (out : ItemId) (e : EdgeEnds) : EdgeEnds :=
  { e with
    source := e.source.map fun i => if i ∈ items then out else i
    target := e.target.map fun i => if i ∈ items then out else i }

/-- The item is another one after some vertices were merged into one. -/
structure Item.Follows (items : List ItemId) (out : ItemId) (y x : Item) : Prop where
  /-- The same names. -/
  names : y.names = x.names
  /-- The same class. -/
  kind : y.kind = x.kind
  /-- The same condition. -/
  condition : y.condition = x.condition
  /-- The same annotation. -/
  bounds : y.bounds = x.bounds
  /-- The same marker. -/
  provenance : y.provenance = x.provenance
  /-- The ends have moved along. -/
  ends : y.ends? = x.ends?.map (EdgeEnds.follow items out)

namespace Rule

open Query

/-- The second query came out of the first one by a change about some items, out of which one vertex
came. -/
structure Changes (q q' : Query) (items : List ItemId) (out : ItemId) : Prop where
  /-- An item beside the vertex that came out is an old one that the change is not about. -/
  back : ∀ {j y}, q'.item? j = some y → j ≠ out →
    j ∉ items ∧ ∃ x, q.item? j = some x ∧ y.Follows items out x
  /-- Items that the change is not about stay. -/
  forth : ∀ {j x}, q.item? j = some x → j ∉ items →
    j ≠ out ∧ ∃ y, q'.item? j = some y ∧ y.Follows items out x
  /-- What comes out is a composite vertex with the names of all these items. -/
  out : ∃ y, q'.item? out = some y ∧ y.kind = .composite ∧
    ∀ n, n ∈ y.names ↔ ∃ i ∈ items, ∃ x, q.item? i = some x ∧ n ∈ x.names
  /-- Constraints are the old ones. -/
  constraints : ∀ {c C' k}, q'.container? c = some C' → k ∈ C'.constraints →
    ∃ d D, q.container? d = some D ∧ k ∈ D.constraints

section Follow

variable {items : List ItemId} {out : ItemId}

theorem follow_same {v : ItemId} (e : EdgeEnds) : e.follow [v] v = e := by
  have hid : (fun i => if i ∈ [v] then v else i) = id := funext fun i => by
    by_cases hi : i = v <;> simp [hi]
  rw [EdgeEnds.follow,hid,Option.map_id,id,id]

theorem follow_eq_redirect {e : EdgeEnds} {old new : ItemId}
    (h : ∀ i, e.source = some i ∨ e.target = some i →
      (if i ∈ items then out else i) = if i = old then new else i) :
    e.follow items out = e.redirect old new := by
  obtain ⟨source,target,sn,tn,d⟩ := e
  have hs : source.map (fun i => if i ∈ items then out else i) =
      if source = some old then some new else source := by
    cases source with
    | none => rfl
    | some a =>
      rw [Option.map_some,h a (.inl rfl)]
      by_cases ha : a = old <;> simp [ha]
  have ht : target.map (fun i => if i ∈ items then out else i) =
      if target = some old then some new else target := by
    cases target with
    | none => rfl
    | some b =>
      rw [Option.map_some,h b (.inr rfl)]
      by_cases hb : b = old <;> simp [hb]
  simp only [EdgeEnds.follow,EdgeEnds.redirect,hs,ht]

theorem follows_mapEnds {x : Item} {old new : ItemId}
    (h : ∀ ends, x.ends? = some ends → ends.follow items out = ends.redirect old new) :
    (x.mapEnds fun ends => ends.redirect old new).Follows items out x := by
  have hs := Item.sameButIncidence_mapEnds (fun ends => ends.redirect old new) x
  refine ⟨hs.names,hs.kind,hs.condition,hs.bounds,hs.provenance,?_⟩
  rw [Item.ends?_mapEnds]
  cases he : x.ends? with
  | none => rfl
  | some ends => rw [Option.map_some,Option.map_some,h ends he]

theorem follows_of_same {x y : Item} {v : ItemId} (hs : y.names = x.names ∧ y.kind = x.kind ∧
    y.condition = x.condition ∧ y.bounds = x.bounds ∧ y.provenance = x.provenance)
    (he : y.ends? = x.ends?) : y.Follows [v] v x := by
  obtain ⟨h1,h2,h3,h4,h5⟩ := hs
  refine ⟨h1,h2,h3,h4,h5,?_⟩
  rw [he]
  cases x.ends? with
  | none => rfl
  | some ends => rw [Option.map_some,follow_same]

end Follow

/-- The ends of an edge are no edges. -/
theorem end_ne {q : Query} (h : q.WellFormed) {j e i : ItemId} {x y : Item} {ends : EdgeEnds}
    (hx : q.item? j = some x) (he : x.ends? = some ends)
    (hi : ends.source = some i ∨ ends.target = some i) (hy : q.item? e = some y)
    (hye : y.ends?.isSome = true) : i ≠ e := by
  obtain ⟨z,hz,hv⟩ := h.incident.ended hx ⟨ends,he,hi⟩
  rintro rfl
  rw [hy] at hz
  cases hz
  rw [Item.not_isVertex_iff.mpr (Option.isSome_iff_exists.mp hye)] at hv
  cases hv

/-- The items that a change is about go, but for the one that comes out, and the others follow. -/
theorem changes_of_map {q q' : Query} {items : List ItemId} {out : ItemId}
    {g : ItemId → Item → Item}
    (hother : ∀ j, j ∉ items → j ≠ out → q'.item? j = (q.item? j).map (g j))
    (hgone : ∀ j ∈ items, j ≠ out → q'.item? j = none)
    (hfollow : ∀ {j x}, q.item? j = some x → (g j x).Follows items out x)
    (hfresh : out ∉ items → q.item? out = none)
    (hout : ∃ y, q'.item? out = some y ∧ y.kind = .composite ∧
      ∀ n, n ∈ y.names ↔ ∃ i ∈ items, ∃ x, q.item? i = some x ∧ n ∈ x.names)
    (hc : ∀ {c C' k}, q'.container? c = some C' → k ∈ C'.constraints →
      ∃ d D, q.container? d = some D ∧ k ∈ D.constraints) : Changes q q' items out where
  back {j y} hy hj := by
    by_cases hm : j ∈ items
    · rw [hgone j hm hj] at hy
      cases hy
    · rw [hother j hm hj] at hy
      obtain ⟨x,hx,rfl⟩ := Option.map_eq_some_iff.mp hy
      exact ⟨hm,x,hx,hfollow hx⟩
  forth {j x} hx hm := by
    have hj : j ≠ out := by
      rintro rfl
      rw [hfresh hm] at hx
      cases hx
    refine ⟨hj,_,?_,hfollow hx⟩
    rw [hother j hm hj,hx]
    rfl
  out := hout
  constraints := hc

theorem exists_named_cons {q : Query} {i : ItemId} {x : Item} (hx : q.item? i = some x)
    (is : List ItemId) (n : String) :
    (∃ j ∈ i :: is, ∃ y, q.item? j = some y ∧ n ∈ y.names) ↔
      n ∈ x.names ∨ ∃ j ∈ is, ∃ y, q.item? j = some y ∧ n ∈ y.names := by
  simp [hx]

theorem exists_named_nil (q : Query) (n : String) :
    (∃ j ∈ ([] : List ItemId), ∃ y, q.item? j = some y ∧ n ∈ y.names) ↔ False := by
  simp

/-- A change after which every item is what it was but for the vertex that it is about. -/
theorem changes_of_items {q q' : Query} {v : ItemId} {x z : Item} {g : Item → Item}
    (hother : ∀ j, j ≠ v → q'.item? j = (q.item? j).map g)
    (hfollow : ∀ x, (g x).Follows [v] v x) (hx : q.item? v = some x) (hz : q'.item? v = some z)
    (hk : z.kind = .composite) (hn : z.names = x.names)
    (hc : ∀ {c C' k}, q'.container? c = some C' → k ∈ C'.constraints →
      ∃ d D, q.container? d = some D ∧ k ∈ D.constraints) : Changes q q' [v] v := by
  refine changes_of_map (g:=fun _ => g) (fun j _ hj => hother j hj)
    (fun j hm hj => absurd (List.mem_singleton.mp hm) hj) (fun {_ x} _ => hfollow x)
    (fun hm => absurd (List.mem_singleton_self v) hm) ⟨z,hz,hk,fun n => ?_⟩ hc
  rw [hn,exists_named_cons hx,exists_named_nil,or_false]

theorem changes_withReplaced {q : Query} (h : q.WellFormed) {v : ItemId} {x new : Item}
    {edges : List ItemId} {c : ContainerId} (hx : q.item? v = some x)
    (he : x.edges? = some edges) (hk : new.kind = .composite)
    (hn : ∀ n, n ∈ new.names ↔ n ∈ x.names) :
    Changes q (q.withReplaced c v edges new) [v] q.nextItem := by
  obtain ⟨hold,hnew,hother⟩ := item?_withReplaced h c new hx he
  have hsame := sameButIncidence_foldl_attach edges { new with container := some c }
  refine changes_of_map (fun j hm hj => hother j (fun hjv => hm (List.mem_singleton.mpr hjv)) hj)
    (fun j hm _ => (List.mem_singleton.mp hm).symm ▸ hold) (fun {j y} _ => ?_)
    (fun _ => q.item?_nextItem) ⟨_,hnew,hsame.kind.trans hk,fun n => ?_⟩ fun {a C' k} hC hk => ?_
  · exact follows_mapEnds fun ends _ => follow_eq_redirect fun i _ => by simp
  · rw [hsame.names,exists_named_cons hx,exists_named_nil,or_false]
    exact hn n
  · rw [container?_withReplaced] at hC
    split at hC
    · obtain ⟨C,hC₀,rfl⟩ := Option.map_eq_some_iff.mp hC
      exact ⟨a,C,hC₀,hk⟩
    · exact ⟨a,C',hC,hk⟩

theorem changes_absorbed {q q' : Query} (h : q.WellFormed) {e old new : ItemId} {y u w : Item}
    {ends : EdgeEnds} (ha : q.Absorbed q' e old new w) (hy : q.item? e = some y)
    (he : y.ends? = some ends) (hu : q.item? old = some u) (hw : q.item? new = some w)
    (hk : w.kind = .composite) {f : Item → Item} (hb : ∀ z, (f z).body = z.body)
    (hn : ∀ z n, n ∈ (f z).names ↔ n ∈ z.names ∨ n ∈ u.names ∨ n ∈ y.names) :
    Changes q (q'.mapItem new f) [new,e,old] new := by
  obtain ⟨z,hz,hsame⟩ := ha.kept
  have hnew : (q'.mapItem new f).item? new = some (f z) := by
    rw [item?_mapItem,if_pos rfl,hz]
    rfl
  have hother : ∀ j, j ∉ [new,e,old] → j ≠ new → (q'.mapItem new f).item? j =
      (q.item? j).map fun x => x.mapEnds fun ends => ends.redirect old new := by
    intro j hm hj
    simp only [List.mem_cons,List.not_mem_nil,or_false,not_or] at hm
    rw [item?_mapItem,if_neg hj,ha.other j hm.2.1 hm.2.2 hj]
  have hgone : ∀ j ∈ [new,e,old], j ≠ new → (q'.mapItem new f).item? j = none := by
    intro j hm hj
    simp only [List.mem_cons,List.not_mem_nil,or_false] at hm
    rcases hm with hm|hm|hm
    · exact absurd hm hj
    · rw [item?_mapItem,if_neg hj,hm,ha.edgeGone]
    · rw [item?_mapItem,if_neg hj,hm,ha.vertexGone]
  refine changes_of_map hother hgone (fun {j x} hx => ?_)
    (fun hm => absurd List.mem_cons_self hm) ⟨f z,hnew,?_,fun n => ?_⟩ fun {a C' k} hC hk => ?_
  · -- No edge ends at the edge that is gone.
    refine follows_mapEnds fun ends' he' => follow_eq_redirect fun i hi => ?_
    have hie := end_ne h hx he' hi hy (by rw [he]; rfl)
    by_cases h1 : i = old
    · simp [h1]
    · by_cases h2 : i = new
      · simp [h2]
      · simp [h1,h2,hie]
  · rw [Item.kind,hb]
    exact hsame.kind.trans hk
  · rw [hn,hsame.names,exists_named_cons hw,exists_named_cons hy,exists_named_cons hu,
      exists_named_nil,or_false]
    exact or_congr_right or_comm
  · rw [container?_mapItem,ha.container] at hC
    obtain ⟨C,hC₀,rfl⟩ := Option.map_eq_some_iff.mp hC
    exact ⟨a,C,hC₀,hk⟩

theorem changes_withoutEdge {q : Query} (h : q.WellFormed) {v e : ItemId} {x y : Item}
    {ends : EdgeEnds} {c : ContainerId} (hx : q.item? v = some x) (hk : x.kind = .composite)
    (hy : q.item? e = some y) (he : y.ends? = some ends) (hc : y.container = some c)
    {f : Item → Item} (hb : ∀ z, (f z).body = z.body)
    (hn : ∀ z n, n ∈ (f z).names ↔ n ∈ z.names ∨ n ∈ y.names) :
    Changes q ((q.withoutEdge c e ends).mapItem v f) [v,e] v := by
  have hve : v ≠ e := ne_of_ends hy he hx (Item.isVertex_of_kind (.inr hk))
  have hdetach : ∀ j (x : Item), (if ends.Touches j then x.detach e else x).SameButIncidence x ∧
      (if ends.Touches j then x.detach e else x).ends? = x.ends? := by
    intro j x
    split
    · exact ⟨Item.sameButIncidence_detach e x,Item.ends?_detach e x⟩
    · exact ⟨.refl x,rfl⟩
  have hother : ∀ j, j ∉ [v,e] → j ≠ v → ((q.withoutEdge c e ends).mapItem v f).item? j =
      (q.item? j).map fun x => if ends.Touches j then x.detach e else x := by
    intro j hm hj
    simp only [List.mem_cons,List.not_mem_nil,or_false,not_or] at hm
    rw [item?_mapItem,if_neg hj,item?_withoutEdge,if_neg hm.2]
  have hgone : ∀ j ∈ [v,e], j ≠ v → ((q.withoutEdge c e ends).mapItem v f).item? j = none := by
    intro j hm hj
    simp only [List.mem_cons,List.not_mem_nil,or_false] at hm
    rw [item?_mapItem,if_neg hj,item?_withoutEdge,if_pos (hm.resolve_left hj)]
  have hv : ((q.withoutEdge c e ends).mapItem v f).item? v =
      some (f (if ends.Touches v then x.detach e else x)) := by
    rw [item?_mapItem,if_pos rfl,item?_withoutEdge,if_neg hve,hx]
    rfl
  refine changes_of_map hother hgone (fun {j x} hx' => ?_)
    (fun hm => absurd List.mem_cons_self hm) ⟨_,hv,?_,fun n => ?_⟩ fun {a C' k} hC hk => ?_
  · -- No edge ends at the edge that is gone, so all ends stay.
    obtain ⟨hs,hends⟩ := hdetach j x
    refine ⟨hs.names,hs.kind,hs.condition,hs.bounds,hs.provenance,?_⟩
    rw [hends]
    cases he' : x.ends? with
    | none => rfl
    | some ends' =>
      have hfix : ends'.follow [v,e] v = ends'.redirect v v := follow_eq_redirect fun i hi => by
        have hie := end_ne h hx' he' hi hy (by rw [he]; rfl)
        by_cases hiv : i = v <;> simp [hiv,hie]
      rw [Option.map_some,hfix,ends'.redirect_self]
  · rw [Item.kind,hb]
    exact (hdetach v x).1.kind.trans hk
  · rw [hn,(hdetach v x).1.names,exists_named_cons hx,exists_named_cons hy,exists_named_nil,
      or_false]
  · rw [container?_mapItem,container?_withoutEdge h hy hc] at hC
    obtain ⟨C,hC₀,rfl⟩ := Option.map_eq_some_iff.mp hC
    exact ⟨a,C,hC₀,hk⟩

/-- A reduction is a change about the items of its application. -/
theorem Reduction.changes {q q' : Query} {rule : Rule} {a : Application} {out : ItemId}
    (h : q.WellFormed) (hr : Reduction q rule a q' out) : Changes q q' a.items out := by
  cases hr with
  | @getVertex v x edges c live kind bounds listed owner unmarked =>
    exact changes_withReplaced h live listed rfl fun n => mem_orderedSet
  | @absorbSelfLoop _ e x y ends c live settled edge ended loop owner bounds unmarked =>
    exact changes_withoutEdge h live settled.kind edge ended owner (fun _ => rfl) fun z n => by
      rw [Item.joinNames,mem_orderedSet,List.mem_append]
  | @collapseEdge _ e u x y w ends edges c d able settled settled' unmarked together =>
    exact changes_absorbed h (able.leaves h) able.edge able.ended able.absorbed able.kept
      settled.kind (fun _ => rfl) fun z n => by
        rw [Item.joinNames,mem_orderedSet,List.mem_append,List.mem_append]
  | @absorbAnnotatedVertex _ e u x y w ends c d a marker able settled bounds annotated unmarked
      unmarked' together marking marked =>
    exact changes_absorbed h (able.leaves_alone h) able.edge able.ended able.absorbed able.kept
      settled.kind (fun _ => rfl) fun z n => by
        change n ∈ orderedSet (z.names ++ (w.names ++ y.names)) ↔ _
        rw [mem_orderedSet,List.mem_append,List.mem_append]
  | @applyUpperLimit _ x marker live kind bounds marked =>
    refine changes_of_items (z:={ x with provenance := none }) (g:=id) (fun j hj => ?_)
      (fun y => follows_of_same ⟨rfl,rfl,rfl,rfl,rfl⟩ rfl) live ?_ kind rfl
      fun hC hk => ⟨_,_,hC,hk⟩
    · rw [item?_mapItem,if_neg hj,Option.map_id_apply]
    · rw [item?_mapItem,if_pos rfl,live]
      rfl
  | @eliminateSubquery _ x s p S live settled owner inner parent alone =>
    obtain ⟨hne,hss,hps⟩ := h.nested.around inner parent
    have hfollow : ∀ x : Item,
        (if x.container = some s then { x with container := some p } else x).Follows [out] out x := by
      intro x
      split <;> exact follows_of_same ⟨rfl,rfl,rfl,rfl,rfl⟩ rfl
    refine changes_of_items (z:={ x with container := some p, bounds := S.bounds })
      (fun j hj => ?_) hfollow live ?_ settled.kind rfl ?_
    · rw [item?_mapItem,if_neg hj,item?_flattened h inner]
    · rw [item?_mapItem,if_pos rfl,item?_flattened_inside h inner live owner,Option.map_some]
    · intro a C' k hC hk
      rw [container?_mapItem,container?_flattened a hne hss hps] at hC
      split at hC
      · cases hC
      · obtain ⟨C,hC₀,rfl⟩ := Option.map_eq_some_iff.mp hC
        split at hk
        · rcases List.mem_append.mp hk with hk|hk
          · exact ⟨a,C,hC₀,hk⟩
          · exact ⟨s,S,inner,hk⟩
        · refine ⟨a,C,hC₀,?_⟩
          split at hk
          · cases C with
            | mk kind => cases kind <;> exact hk
          · exact hk
  | @processConstraint _ x k found c C rest live settled declared bounds inside owner first carried =>
    obtain ⟨before,after,hC,hrest,-⟩ := takeFirst_first first
    refine changes_of_items (z:=x) (g:=id) (fun j _ => ?_)
      (fun y => follows_of_same ⟨rfl,rfl,rfl,rfl,rfl⟩ rfl) live live settled.kind rfl
      fun {a C' l} hC' hl => ?_
    · rw [item?_mapContainer,Option.map_id_apply]
    · rw [container?_mapContainer] at hC'
      split at hC'
      · rename_i ha
        rw [ha,owner] at hC'
        cases hC'
        refine ⟨c,C,owner,?_⟩
        rw [hC]
        rw [hrest] at hl
        rcases List.mem_append.mp hl with hl|hl
        · exact List.mem_append_left _ hl
        · exact List.mem_append_right _ (List.mem_cons_of_mem _ hl)
      · exact ⟨a,C',hC',hl⟩

/-- The marker of the vertex that comes out is the upper bound of an annotated vertex that was
absorbed, with the name that an end of the edge has there. -/
theorem Reduction.marking {q q' : Query} {rule : Rule} {a : Application} {out : ItemId}
    (h : q.WellFormed) (hr : Reduction q rule a q' out) {z : Item} {m : Provenance}
    (hz : q'.item? out = some z) (hm : z.provenance = some m) :
    ∃ e u x y w ends b max name, a.items = [out,e,u] ∧ q.item? out = some x ∧ q.item? e = some y ∧
      y.ends? = some ends ∧ q.item? u = some w ∧ w.bounds = some b ∧ b.max = some max ∧
      ends.nameAmong? w.names = some name ∧ m = ⟨w.joinedName,name,some max⟩ := by
  cases hr with
  | @getVertex v x edges c live kind bounds listed owner unmarked =>
    rw [(item?_withReplaced h c _ live listed).2.1] at hz
    cases hz
    rw [(sameButIncidence_foldl_attach edges _).provenance] at hm
    cases hm
  | @absorbSelfLoop _ e x y ends c live settled edge ended loop owner bounds unmarked =>
    have hne : out ≠ e := ne_of_ends edge ended live (Item.isVertex_of_kind (.inr settled.kind))
    rw [item?_mapItem,if_pos rfl,item?_withoutEdge,if_neg hne,live,Option.map_some,
      if_pos (.inl loop.1)] at hz
    cases hz
    have hp := (Item.sameButIncidence_detach e x).provenance.trans settled.provenance
    rw [Item.joinNames,hp] at hm
    cases hm
  | @collapseEdge _ e u x y w ends edges c d able settled settled' unmarked together =>
    obtain ⟨z',hz',hsame⟩ := (able.leaves h).kept
    rw [item?_mapItem,if_pos rfl,hz'] at hz
    cases hz
    rw [Item.joinNames,hsame.provenance,settled.provenance] at hm
    cases hm
  | @absorbAnnotatedVertex _ e u x y w ends c d b marker able settled bounds annotated unmarked
      unmarked' together marking marked =>
    obtain ⟨z',hz',hsame⟩ := (able.leaves_alone h).kept
    rw [item?_mapItem,if_pos rfl,hz'] at hz
    cases hz
    change marker = some m at hm
    rw [hm] at marking
    obtain ⟨max,hmax,hsome⟩ := Option.bind_eq_some_iff.mp marking.symm
    obtain ⟨name,hname,rfl⟩ := Option.map_eq_some_iff.mp hsome
    exact ⟨e,u,x,y,w,ends,b,max,name,rfl,able.kept,able.edge,able.ended,able.absorbed,bounds,hmax,
      hname,rfl⟩
  | @applyUpperLimit _ x marker live kind bounds marked =>
    rw [item?_mapItem,if_pos rfl,live] at hz
    cases hz
    cases hm
  | @eliminateSubquery _ x s p S live settled owner inner parent alone =>
    rw [item?_mapItem,if_pos rfl,item?_flattened_inside h inner live owner] at hz
    cases hz
    rw [settled.provenance] at hm
    cases hm
  | @processConstraint _ x k found c C rest live settled declared bounds inside owner first carried =>
    rw [item?_mapContainer,live] at hz
    cases hz
    rw [settled.provenance] at hm
    cases hm

/-- The name written for a known end stays a name of the vertex there. -/
theorem Changes.names {q q' : Query} {items : List ItemId} {out : ItemId}
    (hc : Changes q q' items out) {t v : ItemId} {x : Item} (hx : q.item? t = some x)
    (hv : v = if t ∈ items then out else t) : ∃ y, q'.item? v = some y ∧ ∀ n ∈ x.names, n ∈ y.names := by
  by_cases ht : t ∈ items
  · rw [if_pos ht] at hv
    obtain ⟨y,hy,-,hn⟩ := hc.out
    exact ⟨y,hv ▸ hy,fun n hm => (hn n).mpr ⟨t,ht,x,hx,hm⟩⟩
  · rw [if_neg ht] at hv
    obtain ⟨-,y,hy,hf⟩ := hc.forth hx ht
    exact ⟨y,hv ▸ hy,fun n hm => by rw [hf.names]; exact hm⟩

theorem Changes.not_vertex {q q' : Query} {items : List ItemId} {out j : ItemId} {y : Item}
    (hc : Changes q q' items out) (hy : q'.item? j = some y) (hk : y.kind ≠ .composite) :
    j ≠ out := by
  obtain ⟨z,hz,hzk,-⟩ := hc.out
  rintro rfl
  rw [hy] at hz
  cases hz
  exact hk hzk

/-- An edge after a change is an old one that the change is not about. -/
theorem Changes.edge_back {q q' : Query} {items : List ItemId} {out e : ItemId} {y : Item}
    {ends : EdgeEnds} (hc : Changes q q' items out) (hy : q'.item? e = some y)
    (he : y.ends? = some ends) : e ∉ items ∧
      ∃ x ends₀, q.item? e = some x ∧ x.ends? = some ends₀ ∧ ends = ends₀.follow items out ∧
        y.Follows items out x := by
  have hk := Item.kind_edge_iff.mpr ⟨ends,he⟩
  obtain ⟨hm,x,hx,hf⟩ := hc.back hy (hc.not_vertex hy (by rw [hk]; nofun))
  rw [hf.ends] at he
  obtain ⟨ends₀,he₀,rfl⟩ := Option.map_eq_some_iff.mp he
  exact ⟨hm,x,ends₀,hx,he₀,rfl,hf⟩

/-- The rules can work on a query after a change if they could before. -/
theorem Changes.reducible {q q' : Query} {items : List ItemId} {out : ItemId}
    (hc : Changes q q' items out) (h : q.Reducible) (hq : q'.WellFormed) : q'.Reducible where
  wellFormed := hq
  unmarked {j y} hy hk := by
    obtain ⟨-,x,hx,hf⟩ := hc.back hy (hc.not_vertex hy (by rw [hk]; nofun))
    exact hf.provenance.trans (h.unmarked hx (hf.kind ▸ hk))
  source := by
    intro e y ends v hy he hv
    obtain ⟨-,x,ends₀,hx,he₀,rfl,-⟩ := hc.edge_back hy he
    obtain ⟨t,ht,hvt⟩ := Option.map_eq_some_iff.mp hv
    obtain ⟨z,hz,hname⟩ := h.source hx he₀ ht
    obtain ⟨z',hz',hsub⟩ := hc.names hz hvt.symm
    exact ⟨z',hz',hsub _ hname⟩
  target := by
    intro e y ends v hy he hv
    obtain ⟨-,x,ends₀,hx,he₀,rfl,-⟩ := hc.edge_back hy he
    obtain ⟨t,ht,hvt⟩ := Option.map_eq_some_iff.mp hv
    obtain ⟨z,hz,hname⟩ := h.target hx he₀ ht
    obtain ⟨z',hz',hsub⟩ := hc.names hz hvt.symm
    exact ⟨z',hz',hsub _ hname⟩

/-- Plans can be made of a query after a change if they could be made before. -/
theorem Changes.plannable {q q' : Query} {items : List ItemId} {out : ItemId}
    (hc : Changes q q' items out) (h : q.Plannable) (hq : q'.WellFormed) : q'.Plannable where
  toReducible := hc.reducible h.toReducible hq
  comparable hC hk := by
    obtain ⟨d,D,hD,hm⟩ := hc.constraints hC hk
    exact h.comparable hD hm

end Rule

end GraphPattern
