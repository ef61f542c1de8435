import GraphPattern.Proofs.Query.Removals

/-!
# Changing a query in place

Annotations, markers and names are changed in one slot. Replacing a vertex, absorbing one and
flattening a subquery hand edges or members over to another owner before the old one goes; the query
is well formed again once the last pass is done.
-/

namespace GraphPattern

/-- The item with more names. -/
def Item.joinNames (names : List String) (x : Item) : Item :=
  { x with names := orderedSet (x.names ++ names) }

namespace Query

open Step

variable {q : Query}

/-! ## Annotations, markers and names -/

theorem setBounds_ok {i : ItemId} {x : Item} (hx : q.item? i = some x)
    (bounds : Option Annotation) : setBounds i bounds q =
      .ok () (q.mapItem i fun item => { item with bounds := bounds }) :=
  modifyItem_ok (by rw [hx]; rfl)

theorem setBounds_cases (q : Query) (i : ItemId) (bounds : Option Annotation) :
    Refuses (setBounds i bounds) q ∨ ∃ x, q.item? i = some x := by
  cases hx : q.item? i with
  | none => exact .inl (modifyItem_refuses hx)
  | some x => exact .inr ⟨x,rfl⟩

theorem setProvenance_ok {i : ItemId} {x y : Item} {marker : Option Provenance}
    (hx : q.item? i = some x) (hy : x.withProvenance marker = .ok y) :
    setProvenance i marker q = .ok () (q.mapItem i fun _ => y) := by
  simp only [setProvenance,bind_apply,get_apply,item_of_some hx,lift_ok,hy]
  exact modifyItem_ok (by rw [hx]; rfl)

theorem setProvenance_cases (q : Query) (i : ItemId) (marker : Option Provenance) :
    Refuses (setProvenance i marker) q ∨
      ∃ x y, q.item? i = some x ∧ x.withProvenance marker = .ok y := by
  cases hx : q.item? i with
  | none => left; simp [Refuses,setProvenance,bind_apply,item_of_none hx]
  | some x =>
    cases hy : x.withProvenance marker with
    | error => left; simp [Refuses,setProvenance,bind_apply,item_of_some hx,hy]
    | ok y => exact .inr ⟨x,y,rfl,hy⟩

theorem withProvenance_eq_ok {x y : Item} {marker : Option Provenance} :
    x.withProvenance marker = .ok y ↔
      ¬(marker.isSome = true ∧ x.kind.bearsProvenance = false) ∧
        y = { x with provenance := marker } := by
  rw [Item.withProvenance]
  split
  · rename_i h
    simp only [Bool.and_eq_true,Bool.not_eq_true'] at h
    exact ⟨nofun,fun hn => absurd h hn.1⟩
  · rename_i h
    simp only [Bool.and_eq_true,Bool.not_eq_true'] at h
    exact ⟨fun he => ⟨h,(Except.ok.inj he).symm⟩,fun he => congrArg Except.ok he.2.symm⟩

theorem item?_of_setProvenance {q' : Query} {i : ItemId} {marker : Option Provenance} {u : Unit}
    (h : setProvenance i marker q = .ok u q') :
    ∃ x, q.item? i = some x ∧ q'.item? i = some { x with provenance := marker } := by
  obtain ⟨x,y,hx,hy⟩ := not_refused (setProvenance_cases q i marker) h
  rw [setProvenance_ok hx hy] at h
  cases h
  obtain ⟨-,rfl⟩ := withProvenance_eq_ok.mp hy
  refine ⟨x,hx,?_⟩
  rw [item?_mapItem,if_pos rfl,hx]
  rfl

theorem addNames_ok {i : ItemId} {x candidate y : Item} {names : List String}
    (hn : Item.newComposite names = .ok candidate) (hf : q.Free candidate.names (some i))
    (hx : q.item? i = some x) (hy : x.withNames names = .ok y) :
    addNames i names q = .ok () (q.mapItem i fun _ => y) := by
  simp only [addNames,bind_apply,get_apply,hn,checkNames_eq_ok.mpr hf,item_of_some hx,lift_ok,hy]
  exact modifyItem_ok (by rw [hx]; rfl)

theorem addNames_cases (q : Query) (i : ItemId) (names : List String) :
    Refuses (addNames i names) q ∨ ∃ x candidate y, Item.newComposite names = .ok candidate ∧
      q.Free candidate.names (some i) ∧ q.item? i = some x ∧ x.withNames names = .ok y := by
  cases hn : Item.newComposite names with
  | error => left; simp [Refuses,addNames,bind_apply,hn]
  | ok candidate =>
    cases hf : q.checkNames candidate.names (some i) with
    | error => left; simp [Refuses,addNames,bind_apply,hn,hf]
    | ok =>
      cases hx : q.item? i with
      | none => left; simp [Refuses,addNames,bind_apply,hn,hf,item_of_none hx]
      | some x =>
        cases hy : x.withNames names with
        | error => left; simp [Refuses,addNames,bind_apply,hn,hf,item_of_some hx,hy]
        | ok y => exact .inr ⟨x,candidate,y,rfl,checkNames_eq_ok.mp hf,rfl,hy⟩

theorem forM_checkName {names : List String} :
    names.forM Item.checkName = .ok ⟨⟩ ↔ "" ∉ names := by
  induction names with
  | nil => exact ⟨fun _ => List.not_mem_nil,fun _ => rfl⟩
  | cons n ns ih =>
    change (Item.checkName n >>= fun _ => ns.forM Item.checkName) = _ ↔ _
    rw [List.mem_cons,not_or,← ih]
    by_cases he : n = ""
    · simp [Item.checkName,he]
    · simp only [Item.checkName,he,if_false,except_pure,ok_bind]
      exact ⟨fun h => ⟨fun hn => he hn.symm,h⟩,fun h => h.2⟩

/-- A new composite vertex is made exactly of some names, all of them proper. -/
theorem newComposite_eq_ok {names : List String} {x : Item} :
    Item.newComposite names = .ok x ↔
      names ≠ [] ∧ "" ∉ names ∧ x = Item.bare (orderedSet names) (.vertex true []) := by
  rw [Item.newComposite,← forM_checkName]
  cases hc : names.forM Item.checkName with
  | error => simp
  | ok =>
    cases names with
    | nil => simp
    | cons n ns =>
      simp only [ok_bind,List.isEmpty_cons,Bool.false_eq_true,if_false,except_pure,
        Except.ok.injEq,ne_eq,reduceCtorEq,not_false_eq_true,true_and]
      exact eq_comm

/-- Only composite vertices can be given further names. -/
theorem withNames_eq_ok {x y : Item} {names : List String} :
    x.withNames names = .ok y ↔
      x.kind = .composite ∧ y = { x with names := orderedSet (x.names ++ names) } := by
  rw [Item.withNames]
  split
  · rename_i hk
    rw [except_pure,Except.ok.injEq]
    exact ⟨fun h => ⟨hk,h.symm⟩,fun h => h.2.symm⟩
  · rename_i hk
    exact ⟨nofun,fun h => absurd h.1 hk⟩

/-- Names can be added to those of a composite vertex. -/
theorem wellNamed_append {x : Item} (hx : x.WellNamed) (hk : x.kind = .composite)
    {names : List String} (hp : "" ∉ names) :
    ({ x with names := orderedSet (x.names ++ names) } : Item).WellNamed := by
  refine ⟨fun he => ?_,fun hm => ?_,pairwise_orderedSet _,fun hc => ?_⟩
  · obtain ⟨m,hm⟩ := List.exists_mem_of_ne_nil _ hx.nonempty
    have hm' : m ∈ orderedSet (x.names ++ names) := mem_orderedSet.mpr (List.mem_append_left _ hm)
    rw [show orderedSet (x.names ++ names) = [] from he] at hm'
    cases hm'
  · exact (List.mem_append.mp (mem_orderedSet.mp hm)).elim hx.proper hp
  · change decide (x.kind = .composite) = false at hc
    rw [hk] at hc
    cases hc

/-- Names given to a composite vertex that no other item has. -/
theorem WellFormed.withNames (h : q.WellFormed) {i : ItemId} {x candidate y : Item}
    {names : List String} (hn : Item.newComposite names = .ok candidate)
    (hf : q.Free candidate.names (some i)) (hx : q.item? i = some x)
    (hy : x.withNames names = .ok y) : (q.mapItem i fun _ => y).WellFormed := by
  obtain ⟨-,hproper,rfl⟩ := newComposite_eq_ok.mp hn
  obtain ⟨hk,rfl⟩ := withNames_eq_ok.mp hy
  have hsame : ∀ j, ((q.mapItem i fun _ => { x with names := orderedSet (x.names ++ names) }).item?
      j).map (fun z => (z.body,z.container)) = (q.item? j).map fun z => (z.body,z.container) := by
    intro j
    rw [item?_mapItem]
    split
    · rename_i hj
      rw [hj,hx]
      rfl
    · rfl
  constructor
  · refine h.owned.of_same (fun j => ?_) fun c => rfl
    have hj := congrArg (Option.map fun z : ItemBody × Option ContainerId =>
      (Item.isVertex (Item.bare [] z.1),z.2)) (hsame j)
    rw [Option.map_map,Option.map_map] at hj
    exact hj
  · exact h.nested.of_same fun c => rfl
  · have hwell := wellNamed_append (h.named.named hx) hk hproper
    refine h.named.of_put (j:=i) hwell (fun k z hz hne n hnm hmz => ?_) fun k z hz => ?_
    · rcases List.mem_append.mp (mem_orderedSet.mp hnm) with hm|hm
      · exact hne (congrArg some (h.named.disjoint hz hx hmz hm))
      · exact hf k z hz hne n (mem_orderedSet.mpr hm) hmz
    · rw [item?_mapItem] at hz
      split at hz
      · rename_i hki
        rw [hki,hx] at hz
        cases hz
        rw [if_pos hki]
        exact ⟨rfl,rfl⟩
      · rename_i hki
        rw [if_neg hki]
        exact ⟨z,hz,rfl,rfl⟩
  · refine h.incident.of_same fun j => ?_
    have hj := congrArg (Option.map Prod.fst) (hsame j)
    rw [Option.map_map,Option.map_map] at hj
    exact hj

/-- Names that no other item has can be given to a composite vertex. -/
theorem addNames_join (h : q.WellFormed) {v : ItemId} {x : Item} {names : List String}
    (hx : q.item? v = some x) (hk : x.kind = .composite) (hne : names ≠ []) (hp : "" ∉ names)
    (hf : q.Free names (some v)) :
    addNames v names q = .ok () (q.mapItem v (Item.joinNames names)) ∧
      (q.mapItem v (Item.joinNames names)).WellFormed := by
  have hn := newComposite_eq_ok.mpr ⟨hne,hp,rfl⟩
  have hy : x.withNames names = .ok (x.joinNames names) := withNames_eq_ok.mpr ⟨hk,rfl⟩
  have hf' : q.Free (Item.bare (orderedSet names) (.vertex true [])).names (some v) :=
    fun i z hz he n hm => hf i z hz he n (mem_orderedSet.mp hm)
  have hsame : (q.mapItem v fun _ => x.joinNames names) = q.mapItem v (Item.joinNames names) :=
    mapItem_congr hx rfl
  exact ⟨hsame ▸ addNames_ok hn hf' hx hy,hsame ▸ h.withNames hn hf' hx hy⟩

end Query

end GraphPattern
