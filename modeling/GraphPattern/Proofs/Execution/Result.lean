import GraphPattern.Proofs.Execution.Run

/-!
# Storing the result of a run

When the steps are done, fetched entries that are left over are released, the entry that remains
becomes a container, and derived links are made from it. None of this can fail if the entry of the
result is the only one and the container is new.
-/

namespace GraphPattern

open Step Matches

namespace Workspace

variable {w w' w'' : Workspace} {name : String} {p q : String → Bool} {O L : Rows}

/-- Some entries were released, and the others hold what they held. -/
structure Leaves (w : Workspace) (p : String → Bool) (w' : Workspace) : Prop where
  /-- The registry is in order. -/
  orderly : w'.Orderly
  /-- These names are left. -/
  keys : w'.registry.keys = w.registry.keys.filter p
  /-- What is left is as it was. -/
  entries : ∀ {n O L}, p n = true → (w'.Entry n O L ↔ w.Entry n O L)
  /-- The data are the same. -/
  data : w.store.SameData w'.store

theorem Leaves.congr (h : w.Leaves p w') (hpq : ∀ n, p n = q n) : w.Leaves q w' :=
  (funext hpq : p = q) ▸ h

theorem Leaves.trans (h : w.Leaves p w') (h' : w'.Leaves q w'') :
    w.Leaves (fun n => p n && q n) w'' where
  orderly := h'.orderly
  keys := by
    rw [h'.keys,h.keys,List.filter_filter]
    exact List.filter_congr fun n _ => Bool.and_comm _ _
  entries {n O L} hn := by
    obtain ⟨hp,hq⟩ := Bool.and_eq_true_iff.mp hn
    exact (h'.entries hq).trans (h.entries hp)
  data := h.data.trans h'.data

theorem Leaves.all (hw : w.Orderly) : w.Leaves (fun _ => true) w :=
  ⟨hw,(List.filter_eq_self.mpr fun _ _ => rfl).symm,fun _ => Iff.rfl,.refl _⟩

/-- An entry that is there is released, and the others hold what they held. -/
theorem outcome_releaseEntry (hw : w.Orderly) (hn : name ∈ w.registry.keys) :
    Outcome (releaseEntry name) w (fun _ w' => w.Leaves (· ≠ name) w') False := by
  obtain ⟨e,O,L,he,-⟩ := hw.sound.exists_entry hn
  obtain ⟨O,L,ho,hl⟩ := hw.sound.entry he
  have htake : take name w = .ok e { w with registry := w.registry.erase name } := by
    simp only [take,require,bind_apply,get_apply,he,pure_apply,modify_apply]
  refine .after htake (.of_ok (a:=⟨⟩) (releasePair_ok (w:={ w with registry := w.registry.erase name })
    ho.holds hl.holds (hw.sound.pair he)) ?_)
  have hfind : ∀ {n f}, (w.registry.erase name).find? n = some f →
      n ≠ name ∧ w.registry.find? n = some f := by
    intro n f hf
    rw [OrderedMap.find?_erase] at hf
    split at hf
    · cases hf
    · exact ⟨‹_›,hf⟩
  have hkept : ∀ {n f}, n ≠ name → w.registry.find? n = some f → ∀ i ∈ f.ids,
      (w.store.discard e.ids).tables.find? i = w.store.tables.find? i := by
    intro n f hne hf i hi
    rw [Store.find?_discard,if_neg (hw.sound.apart hf he hne i hi)]
  have hentries : ∀ {n O L}, n ≠ name →
      (Entry ⟨w.store.discard e.ids,w.registry.erase name,w.scratch⟩ n O L ↔ w.Entry n O L) :=
    fun hne => entry_congr ((OrderedMap.find?_erase _ _ _).trans (if_neg hne)) (hkept hne)
  refine ⟨⟨⟨?_,?_,?_⟩,?_,hw.tidy⟩,?_,?_,⟨rfl,rfl,rfl,rfl⟩⟩
  · intro n f hf
    obtain ⟨hne,hf⟩ := hfind hf
    obtain ⟨O,L,ho,hl⟩ := hw.sound.entry hf
    exact ⟨O,L,⟨ho.bounded,(hkept hne hf _ f.objects_mem).trans ho.holds⟩,
      ⟨hl.bounded,(hkept hne hf _ f.links_mem).trans hl.holds⟩⟩
  · exact fun hf => hw.sound.pair (hfind hf).2
  · exact fun hf hg => hw.sound.apart (hfind hf).2 (hfind hg).2
  · intro n O L hentry
    obtain ⟨f,hf,ho,hl⟩ := hentry
    exact hw.numbered ((hentries (hfind hf).1).mp ⟨f,hf,ho,hl⟩)
  · exact OrderedMap.keys_erase _ _
  · exact fun hn => hentries (of_decide_eq_true hn)

end Workspace

namespace Execution

open Workspace

variable {w w' : Workspace} {finalName destination : String}

/-- What was fetched and is left over is released, but for the result itself. -/
theorem outcome_releaseNames (names : List String) : ∀ w : Workspace, w.Orderly →
    Outcome (names.forM fun name => do
        if name ≠ finalName && (← get).registry.contains name then releaseEntry name) w
      (fun _ w' => w.Leaves (fun n => n = finalName ∨ n ∉ names) w') False := by
  induction names with
  | nil => exact fun w hw => .of_ok rfl ((Leaves.all hw).congr fun n => by simp)
  | cons name names ih =>
    intro w hw
    have hfirst : Outcome (do
          if name ≠ finalName && (← get).registry.contains name then releaseEntry name
          : WorkStep Unit) w
        (fun _ w' => w.Leaves (fun n => n = finalName ∨ n ≠ name) w') False := by
      refine .after (get_apply w) ?_
      by_cases hf : name = finalName
      · rw [if_neg (by simp [hf])]
        exact .of_ok rfl ((Leaves.all hw).congr fun n => by by_cases hn : n = finalName <;> simp [hn,hf])
      · by_cases hn : name ∈ w.registry.keys
        · rw [if_pos (by simp [hf,OrderedMap.contains_iff.mpr hn])]
          refine (outcome_releaseEntry hw hn).imp (fun _ w' h => h.congr fun n => ?_) id
          by_cases hnf : n = finalName
          · simp [hnf,Ne.symm hf]
          · simp [hnf]
        · have hc : w.registry.contains name = false := by
            rw [← Bool.not_eq_true,OrderedMap.contains_iff]
            exact hn
          rw [if_neg (by simp [hc])]
          refine .of_ok rfl ⟨hw,(List.filter_eq_self.mpr fun n hm => ?_).symm,fun _ => Iff.rfl,.refl _⟩
          exact decide_eq_true (.inr fun he => hn (he ▸ hm))
    refine hfirst.bind fun _ w₁ h₁ => (ih w₁ h₁.orderly).imp (fun _ w₂ h₂ => ?_) id
    refine (h₁.trans h₂).congr fun n => ?_
    by_cases hnf : n = finalName <;> simp [hnf]

theorem outcome_releaseFetched (hw : w.Orderly) (steps : List (PlanStep × StepMode)) :
    Outcome (releaseFetched finalName steps) w
      (fun _ w' => w.Leaves (fun n => n = finalName ∨ n ∉ fetched steps) w') False := by
  refine (outcome_releaseNames (orderedSet (fetched steps)) w hw).imp
    (fun _ w' h => h.congr fun n => ?_) id
  simp only [mem_orderedSet]

/-! ## The container -/

/-- Nothing but a new container and tables have changed. -/
structure Stores (s : Store) (name : String) (c : StoredContainer) (s' : Store) : Prop where
  /-- The container is new. -/
  containers : s'.containers = s.containers.insert name c
  /-- The objects are the same. -/
  objects : s'.objects = s.objects
  /-- The links are the same. -/
  links : s'.links = s.links
  /-- Commits fail as before. -/
  failsCommits : s'.failsCommits = s.failsCommits

/-- The container that is made of an entry. -/
def contained (O L : Rows) : StoredContainer := ⟨⟨Column.matched,laid O⟩,⟨Column.matched,laid L⟩⟩

theorem matchedColumns_ok {s : Store} {id : TableId} {rows : Rows}
    (h : s.Holds id Column.matched rows) :
    Store.matchedColumns id s = .ok ⟨Column.matched,laid rows⟩ s := by
  refine (bind_of_ok (Store.table_of_holds h) _).trans ?_
  have hall : (Table.mk Column.matched rows).positions id Column.matched = .ok [0,1,2] := rfl
  rw [Table.project_rows hall]
  rfl

theorem outcome_createContainer {s : Store} {o l : TableId} {O L : Rows}
    (hd : destination ∉ s.containers.keys) (ho : s.Holds o Column.matched O)
    (hl : s.Holds l Column.matched L) : Store.createContainer destination o l s =
      .ok ⟨⟩ { s with containers := s.containers.insert destination (contained O L) } := by
  have hfree : Store.checkFree destination s = .ok ⟨⟩ s := by
    have hc : s.containers.contains destination = false := by
      rw [← Bool.not_eq_true,OrderedMap.contains_iff]
      exact hd
    simp only [Store.checkFree,Store.hasContainer,bind_apply,get_apply,pure_apply,hc,
      Bool.false_eq_true,if_false]
  rw [Store.createContainer,bind_of_ok hfree,bind_of_ok (matchedColumns_ok ho),
    bind_of_ok (matchedColumns_ok hl)]
  rfl

theorem deleteContainer_ok {s : Store} (h : destination ∈ s.containers.keys) :
    Store.deleteContainer destination s =
      .ok ⟨⟩ { s with containers := s.containers.erase destination } := by
  obtain ⟨c,hc⟩ := Option.isSome_iff_exists.mp (OrderedMap.find?_isSome_iff.mpr h)
  simp only [Store.deleteContainer,Store.container,bind_apply,get_apply,hc,pure_apply,modify_apply]

/-- The changes become durable. If commits fail the new container is deleted. -/
theorem ends_commitContainer {w : Workspace} (hd : destination ∈ w.store.containers.keys) :
    Ends (commitContainer destination) w
      (fun _ w' => w.store.failsCommits = false ∧
        w' = { w with store := { w.store with commits := w.store.commits + 1 } })
      fun _ w' => w.store.failsCommits = true ∧ w' = { w with
        store := { w.store with containers := w.store.containers.erase destination } } := by
  cases hc : w.store.failsCommits with
  | false =>
    have hattempt : attempt Store.commit w = .ok none
        { w with store := { w.store with commits := w.store.commits + 1 } } := by
      rw [attempt,EStateM.run,Store.commit_ok hc]
    exact .of_ok (a:=⟨⟩) (bind_of_ok hattempt _) ⟨rfl,rfl⟩
  | true =>
    have hattempt : attempt Store.commit w = .ok (some .commitFailed) w := by
      have hfail : Store.commit w.store = .error .commitFailed w.store := by
        simp only [Store.commit,bind_apply,get_apply,hc,if_true,throw_apply]
      rw [attempt,EStateM.run,hfail]
    have hdelete : attempt (Store.deleteContainer destination) w = .ok none { w with
        store := { w.store with containers := w.store.containers.erase destination } } := by
      rw [attempt,EStateM.run,deleteContainer_ok hd]
    exact .after hattempt (.after hdelete (.of_error rfl ⟨rfl,rfl⟩))

/-- The entry that remains becomes a container. Other entries and commits that fail are the only
obstacles, and then the data are what they were. -/
theorem ends_storeResult (hw : w.Orderly) (hd : destination ∉ w.store.containers.keys) :
    Ends (storeResult finalName destination) w
      (fun _ w' => w.store.failsCommits = false ∧ w.registry.keys = [finalName] ∧
        ∃ O L, w.Entry finalName O L ∧ Stores w.store destination (contained O L) w'.store)
      fun _ w' => (w.store.failsCommits = true ∨ w.registry.keys ≠ [finalName]) ∧
        w.store.SameData w'.store := by
  refine .after (get_apply w) ?_
  by_cases hn : w.registry.keys = [finalName]
  · have hk : finalName ∈ w.registry.keys := by rw [hn]; exact List.mem_cons_self
    obtain ⟨e,O,L,he,hentry⟩ := hw.sound.exists_entry hk
    obtain ⟨ho,hl⟩ := hw.sound.has he hentry
    have htake : take finalName w = .ok e { w with registry := w.registry.erase finalName } := by
      simp only [take,require,bind_apply,get_apply,he,pure_apply,modify_apply]
    rw [if_neg (not_not_intro hn)]
    refine .after htake (ends_withScratch ?_)
    refine .after (a:=e) (t:=⟨w.store,w.registry.erase finalName,[e.objects,e.links]⟩) rfl ?_
    have hrows : ∀ {id : TableId} {rows : Rows}, w.store.Holds id Column.matched rows →
        Store.rowCount id w.store = .ok rows.length w.store := fun h => by
      rw [Store.rowCount,bind_of_ok (Store.table_of_holds h)]
      rfl
    refine .after (t:=⟨w.store,w.registry.erase finalName,[e.objects,e.links]⟩)
      ((lift_apply _ _).trans (by rw [hrows ho.holds])) ?_
    refine .after (t:=⟨w.store,w.registry.erase finalName,[e.objects,e.links]⟩)
      ((lift_apply _ _).trans (by rw [hrows hl.holds])) ?_
    refine .after ((lift_apply _ _).trans
      (by rw [outcome_createContainer hd ho.holds hl.holds])) ?_
    refine Ends.bind ((ends_commitContainer ?_).imp (fun _ _ h => h) fun _ w₁ hw₁ => ?_)
      fun _ w₁ hw₁ => ?_
    · rw [OrderedMap.keys_insert]
      exact mem_insertOrdered.mpr (.inl rfl)
    · obtain ⟨hc,rfl⟩ := hw₁
      exact ⟨.inl hc,rfl,rfl,OrderedMap.erase_insert hd,rfl⟩
    · obtain ⟨hc,rfl⟩ := hw₁
      exact .of_ok rfl ⟨hc,hn,O,L,hentry,⟨rfl,rfl,rfl,rfl⟩⟩
  · rw [if_pos hn]
    exact .of_error rfl ⟨.inr hn,.refl _⟩

/-! ## Derived links -/

/-- The pairs of objects of two items in the same match. -/
def pairRows (c : StoredContainer) (request : DerivedLink) : Rows :=
  Table.distinctRows [0,1] (Table.joinRows [1] [1] [(.left,0),(.right,0)]
    (ofItems [request.source] c.objects.rows) (ofItems [request.target] c.objects.rows))

theorem mem_pairRows {c : StoredContainer} (hk : c.Kept) {request : DerivedLink} {row : List Value}
    (h : row ∈ pairRows c request) : ∃ a b, row = [.int a,.int b] := by
  obtain ⟨r,hr,rfl⟩ := Table.mem_distinctRows.mp h
  obtain ⟨x,hx,y,hy,-,rfl⟩ := Table.mem_joinRows.mp hr
  obtain ⟨a,ha⟩ := hk.numbered.filter _ x hx
  obtain ⟨b,hb⟩ := hk.numbered.filter _ y hy
  exact ⟨a,b,by simp [Table.cells,Table.pickCells,Table.cell] at ha hb ⊢; exact ⟨ha,hb⟩⟩

/-- The links that a request asks for, one for every pair. -/
def requested (c : StoredContainer) (request : DerivedLink) : List StoredLink :=
  (pairRows c request).filterMap fun
    | [.int a,.int b] => some ⟨a,b,⟨[(request.attr,.infer request.value)]⟩⟩
    | _ => none

theorem newAttribute_not_mem (attr : String) :
    Column.newAttribute ++ attr ∉ [Column.newSource,Column.newTarget] := by
  have hlen := String.length_append Column.newAttribute attr
  rw [show Column.newAttribute.length = 5 from rfl] at hlen
  intro hm
  simp only [List.mem_cons,List.not_mem_nil,or_false] at hm
  rcases hm with hm|hm
  · rw [hm,show Column.newSource.length = 4 from rfl] at hlen
    omega
  · rw [hm,show Column.newTarget.length = 2 from rfl] at hlen
    omega

/-- The last column holds the only attribute. -/
theorem newAttributes_pairs (attr : String) (rows : Rows) :
    Store.newAttributes ⟨[Column.newSource,Column.newTarget,Column.newAttribute ++ attr],rows⟩ =
      [(attr,2)] := by
  have hmarked : Column.newAttribute.toList.isPrefixOf (Column.newAttribute ++ attr).toList =
      true := by
    rw [String.toList_append,List.isPrefixOf_iff_prefix]
    exact List.prefix_append _ _
  have hrest : String.ofList ((Column.newAttribute ++ attr).toList.drop
      Column.newAttribute.length) = attr := by
    rw [String.toList_append,← String.length_toList,List.drop_left,String.ofList_toList]
  have hsource : Column.newAttribute.toList.isPrefixOf Column.newSource.toList = false := by decide
  have htarget : Column.newAttribute.toList.isPrefixOf Column.newTarget.toList = false := by decide
  simp only [Store.newAttributes,List.zipIdx_cons,List.zipIdx_nil,List.filterMap_cons,
    List.filterMap_nil,hmarked,hrest,hsource,htarget,Bool.false_eq_true,if_true,if_false]

/-- The rows of pairs ask for the links of the request. -/
theorem newLinks_requested {c : StoredContainer} (hk : c.Kept) (request : DerivedLink)
    (id : TableId) :
    Store.newLinks ⟨[Column.newSource,Column.newTarget,Column.newAttribute ++ request.attr],
      (pairRows c request).map fun row => row ++ [.infer request.value]⟩ id =
        .ok (requested c request) := by
  have hpair : ∀ row ∈ pairRows c request, ∃ a b, row = [.int a,.int b] := fun row =>
    mem_pairRows hk
  refine Eq.trans (b:=((pairRows c request).map fun row => row ++ [.infer request.value]).mapM
    (Store.newLink 0 1 [(request.attr,2)])) ?_ ?_
  · rw [← newAttributes_pairs request.attr
      ((pairRows c request).map fun row => row ++ [.infer request.value])]
    rfl
  · rw [requested]
    generalize pairRows c request = rows at hpair
    induction rows with
    | nil => rfl
    | cons row rows ih =>
      obtain ⟨a,b,rfl⟩ := hpair row List.mem_cons_self
      have hlink : ∀ v : Value, Store.newLink 0 1 [(request.attr,2)] ([.int a,.int b] ++ [v]) =
          .ok ⟨a,b,⟨[(request.attr,v)]⟩⟩ := fun _ => rfl
      rw [List.map_cons,List.mapM_cons,hlink,
        ih fun row hrow => hpair row (List.mem_cons_of_mem _ hrow),List.filterMap_cons,ok_bind,ok_bind,
        except_pure]

theorem made_tracked {o l : TableId} {cols cols' : List String} {s : Store}
    (ho : w.store.Made o cols O s) (hl : w.store.Made l cols' L s) :
    w.Made o cols O ⟨s,w.registry,w.scratch ++ [o] ++ [l]⟩ := by
  refine ⟨⟨rfl,ho.grows,fun i hi => ?_⟩,ho.fresh,⟨ho.bounded,ho.holds⟩⟩
  simp only [List.append_assoc,List.cons_append,List.nil_append,List.mem_append,List.mem_cons,
    List.not_mem_nil,or_false] at hi
  rcases hi with hi|rfl|rfl
  · exact .inl hi
  · exact .inr ho.fresh
  · exact .inr hl.fresh

theorem makes_linkedPairs {container : String} {c : StoredContainer}
    (hc : w.store.containers.find? container = some c) (hk : c.Kept) (request : DerivedLink) :
    w.Makes (linkedPairs container request) [Column.newSource,Column.newTarget]
      (pairRows c request) := by
  refine Outcome.bind (outcome_lift (Store.outcome_itemTables hc [request.source]))
    fun t w₁ hw₁ => ?_
  obtain ⟨s,⟨ho,hl,-⟩,rfl⟩ := hw₁
  rw [hk.objects] at ho
  have h₁ := made_tracked ho hl
  refine .after (a:=⟨t.1,t.2⟩) (t:=⟨s,w.registry,w.scratch ++ [t.1] ++ [t.2]⟩) rfl ?_
  have hc₁ : s.containers.find? container = some c := by rw [ho.grows.data.containers,hc]
  refine Outcome.bind (outcome_lift (Store.outcome_itemTables hc₁ [request.target]))
    fun u w₂ hw₂ => ?_
  obtain ⟨s₂,⟨ho₂,hl₂,-⟩,rfl⟩ := hw₂
  rw [hk.objects] at ho₂
  have h₂ := made_tracked (w:=⟨s,w.registry,w.scratch ++ [t.1] ++ [t.2]⟩) ho₂ hl₂
  refine .after (a:=⟨u.1,u.2⟩) rfl ?_
  refine (makes_temporary (Store.makes_join (h₂.scratches.has h₁.has).holds h₂.has.holds rfl rfl
    rfl)).bind fun pairs w₃ h₃ => ?_
  have g₃ := (h₁.scratches.trans h₂.scratches).trans h₃.scratches
  exact (makes_temporary (Store.makes_distinct h₃.has.holds rfl)).imp
    (fun _ _ h₄ => g₃.made h₄) id

/-- Links are added one after another, each under the number that follows the greatest one. -/
def addLinks (m : OrderedMap Int StoredLink) (links : List StoredLink) : OrderedMap Int StoredLink :=
  links.foldl (fun m link => m.insert (m.keys.getLastD 0 + 1) link) m

theorem createLinks_ok {s : Store} {id : TableId} {cols : List String} {rows : Rows}
    {links : List StoredLink} (h : s.Holds id cols rows)
    (hn : Store.newLinks ⟨cols,rows⟩ id = .ok links) :
    Store.createLinks id s = .ok links.length { s with links := addLinks s.links links } := by
  have hfold : ∀ (links : List StoredLink) (s : Store),
      links.foldl (fun s link => s.addLink (s.lastLinkId + 1) link) s =
        { s with links := addLinks s.links links } := by
    intro links
    induction links with
    | nil => exact fun s => rfl
    | cons link links ih => exact fun s => ih (s.addLink (s.lastLinkId + 1) link)
  rw [Store.createLinks,bind_of_ok (Store.table_of_holds h),hn,bind_of_ok (ofExcept_ok _ s),
    ← hfold links s]
  rfl

/-- New links were made, and of the tables that helped to make them none is noted. -/
structure Derives (w : Workspace) (links : List StoredLink) (w' : Workspace) : Prop where
  /-- The links were added to those that there were. -/
  links : w'.store.links = addLinks w.store.links links
  /-- The objects are the same. -/
  objects : w'.store.objects = w.store.objects
  /-- The containers are the same. -/
  containers : w'.store.containers = w.store.containers
  /-- Commits fail as before. -/
  failsCommits : w'.store.failsCommits = w.store.failsCommits
  /-- No number is given twice. -/
  created : w.store.created ≤ w'.store.created
  /-- Older tables stay as they were. -/
  tables : ∀ {i : TableId}, i.index ≤ w.store.created →
    w'.store.tables.find? i = w.store.tables.find? i
  /-- The registry is the same. -/
  registry : w'.registry = w.registry
  /-- The same tables are to be released. -/
  scratch : w'.scratch = w.scratch

theorem Derives.refl (w : Workspace) : Derives w [] w :=
  ⟨rfl,rfl,rfl,rfl,Nat.le_refl _,fun _ => rfl,rfl,rfl⟩

theorem Derives.trans {links links' : List StoredLink} (h : Derives w links w')
    (h' : Derives w' links' w'') : Derives w (links ++ links') w'' where
  links := by rw [h'.links,h.links,addLinks,addLinks,addLinks,List.foldl_append]
  objects := h'.objects.trans h.objects
  containers := h'.containers.trans h.containers
  failsCommits := h'.failsCommits.trans h.failsCommits
  created := Nat.le_trans h.created h'.created
  tables hi := (h'.tables (Nat.le_trans hi h.created)).trans (h.tables hi)
  registry := h'.registry.trans h.registry
  scratch := h'.scratch.trans h.scratch

/-- The links of one request are made. -/
theorem outcome_deriveLinks {container : String} {c : StoredContainer}
    (hc : w.store.containers.find? container = some c) (hk : c.Kept)
    (hf : w.store.failsCommits = false) (request : DerivedLink) :
    Outcome (deriveLinks container request) w (fun n w' =>
      n = (requested c request).length ∧ Derives w (requested c request) w') False := by
  refine outcome_withScratch ?_
  refine (makes_linkedPairs (w:={ w with scratch := [] }) hc hk request).bind fun i w₁ h₁ => ?_
  refine (outcome_lift (Store.alters_addConstant h₁.has.holds
    (newAttribute_not_mem request.attr))).bind fun _ w₂ hw₂ => ?_
  obtain ⟨s₂,ha,rfl⟩ := hw₂
  have hcreate := createLinks_ok ha.holds (newLinks_requested hk request i)
  refine .after ((lift_apply _ _).trans (by rw [hcreate])) ?_
  have hcommit := Store.commit_ok (s:={ s₂ with links := addLinks s₂.links (requested c request) })
    (ha.data.failsCommits.trans (h₁.scratches.store.data.failsCommits.trans hf))
  refine .after ((lift_apply _ _).trans (by rw [hcommit])) (.of_ok rfl ⟨rfl,?_⟩)
  have hm : w.store.Made i [Column.newSource,Column.newTarget] (pairRows c request) w₁.store :=
    ⟨h₁.scratches.store,h₁.fresh,h₁.has.bounded,h₁.has.holds⟩
  have hgrows := (hm.alters ha).grows
  refine ⟨by rw [← hgrows.data.links]; rfl,hgrows.data.objects,hgrows.data.containers,
    hgrows.data.failsCommits,hgrows.created,fun {j} hj => ?_,h₁.scratches.registry,rfl⟩
  -- What is released is newer than the tables that there were.
  have hnew : j ∉ w₁.scratch := fun hm => by
    rcases h₁.scratches.scratch j hm with hm|hlt
    · exact absurd hm List.not_mem_nil
    · exact Nat.not_lt_of_le hj hlt
  exact (Store.find?_discard _ _ j).trans ((if_neg hnew).trans (hgrows.tables hj))

/-- The links of all requests are made, one request after another. -/
theorem outcome_deriveAllLinks {container : String} {c : StoredContainer} (hk : c.Kept)
    (requests : List DerivedLink) (hc : w.store.containers.find? container = some c)
    (hf : w.store.failsCommits = false) :
    Outcome (deriveAllLinks container requests) w (fun n w' =>
      n = (requests.flatMap (requested c)).length ∧
        Derives w (requests.flatMap (requested c)) w') False := by
  have hall : ∀ w : Workspace, w.store.containers.find? container = some c →
      w.store.failsCommits = false → Outcome (requests.mapM (deriveLinks container)) w
        (fun ns w' => ns = requests.map (fun request => (requested c request).length) ∧
          Derives w (requests.flatMap (requested c)) w') False := by
    induction requests with
    | nil => exact fun w _ _ => .of_ok rfl ⟨rfl,.refl w⟩
    | cons request requests ih =>
      intro w hc hf
      rw [List.mapM_cons]
      refine (outcome_deriveLinks hc hk hf request).bind fun n w₁ h₁ => ?_
      obtain ⟨rfl,h₁⟩ := h₁
      refine (ih w₁ (by rw [h₁.containers,hc]) (h₁.failsCommits.trans hf)).bind fun ns w₂ h₂ => ?_
      obtain ⟨rfl,h₂⟩ := h₂
      exact .of_ok rfl ⟨rfl,h₁.trans h₂⟩
  refine (hall w hc hf).bind fun ns w₁ h₁ => .of_ok rfl ⟨?_,h₁.2⟩
  rw [h₁.1,List.length_flatMap]
  rfl

/-! ## The whole run -/

theorem orderly_fresh (s : Store) : (Workspace.fresh s).Orderly :=
  ⟨⟨nofun,nofun,nofun⟩,fun {_ _ _} ⟨_,he,_⟩ => (nomatch he),rfl⟩

/-- A result is fetched only from a container that a cached item names. -/
theorem find?_of_fetch {cached : OrderedMap String String} {steps : List PlanStep}
    {p : PlanStep × StepMode} (hm : p ∈ steps.zip (modes cached finalName steps).1)
    {container : String} (hf : p.2 = .fetch container) :
    commonSource? cached p.1.step.result.names = some container := by
  induction steps with
  | nil => cases hm
  | cons s steps ih =>
    rw [modes] at hm
    simp only at hm
    split at hm
    · split at hm
      · rename_i source hsource
        rcases List.mem_cons.mp hm with rfl|hm
        · cases hf
          exact hsource
        · exact ih hm
      · rcases List.mem_cons.mp hm with rfl|hm
        · cases hf
        · exact ih hm
    · rcases List.mem_cons.mp hm with rfl|hm
      · cases hf
      · exact ih hm

theorem find?_of_commonSource {cached : OrderedMap String String} {names : List String}
    {container : String} (h : commonSource? cached names = some container) :
    ∃ name, cached.find? name = some container := by
  cases names with
  | nil => cases h
  | cons name names =>
    obtain ⟨h,-⟩ := Option.filter_eq_some_iff.mp h
    exact ⟨name,h⟩

/-- The steps of a plan with what is done with each. -/
def planned (q : Query) (finalName : String) (steps : List PlanStep) : List (PlanStep × StepMode) :=
  steps.zip (modes (q.cachedItems .whole) finalName steps).1

/-- What a run does when the steps are done. -/
def conclude (q : Query) (steps : List (PlanStep × StepMode)) (finalName destination : String) :
    WorkStep ExecutionReport := do
  releaseFetched finalName steps
  let (objects, links) ← storeResult finalName destination
  let subgraphs ← Store.subgraphCount destination
  let derivedLinks ← Workspace.deriveAllLinks destination (q.derivedLinks .whole)
  let executed := steps.countP fun (_, mode) => mode = .execute
  return ⟨destination,executed,steps.length - executed,objects,links,subgraphs,derivedLinks⟩

theorem runPlan_eq (config : ExecutionConfig) (q : Query) (steps : List PlanStep)
    (finalName destination : String) : runPlan config q steps finalName destination = (do
      clearDestination config destination
      runSteps config steps.length 1 (planned q finalName steps)
      conclude q (planned q finalName steps) finalName destination) := rfl

/-- The container holds the last result, if nothing else is left but what was fetched. Otherwise the
data are what they were. -/
theorem ends_conclude (hw : w.Orderly) (hd : destination ∉ w.store.containers.keys) (q : Query)
    (steps : List (PlanStep × StepMode)) :
    Ends (conclude q steps finalName destination) w
      (fun _ w' => w.registry.keys.filter (fun n => n = finalName ∨ n ∉ fetched steps) =
          [finalName] ∧ ∃ O L, w.Entry finalName O L ∧
            w'.store.containers.find? destination = some (contained O L))
      fun _ w' => (w.store.failsCommits = true ∨
        w.registry.keys.filter (fun n => n = finalName ∨ n ∉ fetched steps) ≠ [finalName]) ∧
          w.store.SameData w'.store := by
  refine Ends.bind (outcome_releaseFetched hw steps).ends fun _ w₂ h₂ => ?_
  refine Ends.bind ((ends_storeResult h₂.orderly
    (by rw [h₂.data.containers]; exact hd)).imp (fun _ _ h => h) fun _ _ h => ?_) fun counts w₃ h₃ => ?_
  · rw [h₂.data.failsCommits,h₂.keys] at h
    exact ⟨h.1,h₂.data.trans h.2⟩
  obtain ⟨hc,hkeys,O,L,hentry,hstores⟩ := h₃
  have hfound : w₃.store.containers.find? destination = some (contained O L) := by
    rw [hstores.containers,OrderedMap.find?_insert,if_pos rfl]
  have hcount : (liftM (Store.subgraphCount destination) : WorkStep Nat) w₃ =
      .ok (contained O L).subgraphCells.eraseDups.length w₃ := by
    have hcontainer : Store.container destination w₃.store = .ok (contained O L) w₃.store := by
      simp only [Store.container,bind_apply,get_apply,hfound,pure_apply]
    rw [lift_apply,Store.subgraphCount,bind_of_ok hcontainer]
    rfl
  refine .after hcount ?_
  have hkept : (contained O L).Kept := ⟨rfl,rfl,(h₂.orderly.numbered hentry).laid⟩
  refine Ends.bind (outcome_deriveAllLinks hkept _ hfound (hstores.failsCommits.trans hc)).ends
    fun n w₄ h₄ => ?_
  refine .of_ok rfl ⟨h₂.keys ▸ hkeys,O,L,(h₂.entries (decide_eq_true (.inl rfl))).mp hentry,?_⟩
  rw [h₄.2.containers,hfound]

/-- No room has to be made for a container with a free name. -/
theorem clearDestination_free (config : ExecutionConfig) (hd : destination ∉ w.store.containers.keys) :
    clearDestination config destination w = .ok ⟨⟩ w := by
  have hfree : w.store.containers.contains destination = false := by
    rw [← Bool.not_eq_true,OrderedMap.contains_iff]
    exact hd
  have hhas : (liftM (Store.hasContainer destination) : WorkStep Bool) w = .ok false w := by
    have hstore : Store.hasContainer destination w.store = .ok false w.store := by
      simp only [Store.hasContainer,bind_apply,get_apply,pure_apply,hfree]
    exact (lift_apply _ _).trans (by rw [hstore])
  rw [clearDestination,bind_of_ok hhas]
  rfl

/-- A run answers exactly when its ledger is in order. -/
theorem outcome_runPlan (config : ExecutionConfig) {q : Query} {steps : List PlanStep} {s : Store}
    (hs : ∀ x ∈ steps, x.Carried) (hc : s.failsCommits = false)
    (hp : Provided s (planned q finalName steps)) (hd : destination ∉ s.containers.keys) :
    Outcome (runPlan config q steps finalName destination) (.fresh s)
      (fun _ _ => InOrder finalName (planned q finalName steps))
      ¬InOrder finalName (planned q finalName steps) := by
  rw [runPlan_eq]
  refine .after (clearDestination_free config hd) ?_
  have hsteps := outcome_runSteps config steps.length (planned q finalName steps) 1 (.fresh s)
    (orderly_fresh s) hc (fun p hm => hs p.1 (List.of_mem_zip hm).1) hp
  rw [show (Workspace.fresh s).registry.keys = [] from rfl] at hsteps
  refine Outcome.bind (hsteps.imp (fun _ _ h => h) fun hnone => ?_) fun _ w₁ h₁ => ?_
  · rw [InOrder,hnone]
    exact fun h => by cases h
  have horder : InOrder finalName (planned q finalName steps) ↔
      w₁.registry.keys.filter (fun n => n = finalName ∨ n ∉ fetched (planned q finalName steps)) =
        [finalName] := by
    rw [InOrder,h₁.names,Option.map_some,Option.some_inj]
  refine ((ends_conclude h₁.orderly (by rw [h₁.data.containers]; exact hd) q _).imp
    (fun _ _ h => h) fun _ _ h => h.1).outcome.imp (fun _ _ h => horder.mpr h.1) fun hf h => ?_
  rcases hf with hf|hf
  · rw [h₁.data.failsCommits] at hf
    exact Bool.false_ne_true (hc.symm.trans hf)
  · exact hf (horder.mp h)

end Execution

end GraphPattern
