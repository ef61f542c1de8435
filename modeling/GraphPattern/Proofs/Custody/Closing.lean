import GraphPattern.Proofs.Custody.Workspace

/-!
# The end of the work

At the end of the work with scratch tables two of them become an entry, and the others are released.
If an entry was to be put that exists already, the two tables were kept before the refusal: nobody
releases them any more.
-/

namespace GraphPattern.Workspace

open Step

variable {α β : Type} {w w' w'' w₀ : Workspace} {F F' : TableId → Prop} {name : String}
  {t : SubgraphTables} {o l i : TableId}

/-- The foreign tables are those they were, the data too, and no entry is new but the named one. -/
structure Settles (name : String) (F : TableId → Prop) (w w' : Workspace) : Prop where
  /-- Every table has its place. -/
  custody : w'.Custody F
  /-- The data are the same. -/
  data : w.store.SameData w'.store
  /-- No number is given twice. -/
  created : w.store.created ≤ w'.store.created
  /-- There is at most this new entry. -/
  registry : w'.registry.keys ⊆ name :: w.registry.keys

/-- Besides, there are the scratch tables that there were. -/
structure Restores (name : String) (F : TableId → Prop) (w w' : Workspace) : Prop
    extends Settles name F w w' where
  /-- The same tables are to be released. -/
  scratch : w'.scratch = w.scratch

/-- The work has kept tables for an entry that exists already. -/
def Strands (leak : Option String) (w : Workspace) (e : Error) : Prop :=
  ∃ n, leak = some n ∧ n ∈ w.registry.keys ∧ e = .state (.tablesExist n)

/-- The work has failed. If it kept tables for an entry that exists already, two new tables are
foreign from now on; else the foreign tables are those they were. -/
def Fails (rel : (TableId → Prop) → Workspace → Workspace → Prop) (F : TableId → Prop)
    (leak : Option String) (w : Workspace) (e : Error) (w' : Workspace) : Prop :=
  (¬Strands leak w e ∧ rel F w w') ∨ (Strands leak w e ∧ ∃ o l, o ≠ l ∧
    w.store.created < o.index ∧ w.store.created < l.index ∧
      rel (fun i => F i ∨ i = o ∨ i = l) w w')

/-- Work with scratch tables of its own comes to its end. -/
abbrev Closes (name : String) (F : TableId → Prop) (leak : Option String) (x : WorkStep α)
    (w w' : Workspace) : Prop :=
  Ends x w' (fun _ w'' => Settles name F w w'') (Fails (Settles name) F leak w)

variable {leak : Option String}

theorem Settles.refl (h : w.Custody F) : Settles name F w w :=
  ⟨h,.refl _,Nat.le_refl _,List.subset_cons_self _ _⟩

theorem Restores.refl (h : w.Custody F) : Restores name F w w := ⟨.refl h,rfl⟩

theorem Follows.settles (h : Follows F w w') : Settles name F w w' :=
  ⟨h.custody,h.data,h.created,List.subset_cons_of_subset _ h.registry⟩

theorem Error.Unclashed.not_strands {e : Error} (h : e.Unclashed) : ¬Strands leak w e := by
  rintro ⟨n,-,-,he⟩
  exact h n he

theorem not_strands_none {e : Error} : ¬Strands none w e := by
  rintro ⟨n,hn,-⟩
  cases hn

theorem Follows.fails {e : Error} (h : Follows F w w' ∧ e.Unclashed) :
    Fails (Settles name) F leak w e w' :=
  .inl ⟨Error.Unclashed.not_strands h.2,h.1.settles⟩

/-- Scratch tables are made before the work comes to its end. -/
theorem Closes.after {x : WorkStep α} {f : α → WorkStep β} (hx : Drafts F x)
    (h : Follows F w₀ w) (hf : ∀ a w', Follows F w₀ w' → Closes name F leak (f a) w₀ w') :
    Closes name F leak (x >>= f) w₀ w :=
  ((hx w h.custody).imp (fun _ _ h' => h.trans h') fun _ _ h' =>
    Follows.fails ⟨h.trans h'.1,h'.2⟩).bind hf

/-- A scratch table of which more is known is made before the work comes to its end. -/
theorem Closes.making {x : StoreStep TableId} {f : TableId → WorkStep β} (hx : Store.Adds x)
    (h : Follows F w₀ w) (hf : ∀ o w', Follows F w₀ w' → w.scratch ⊆ w'.scratch →
      w₀.store.created < o.index → o ∈ w'.scratch → o ∉ w.scratch → Closes name F leak (f o) w₀ w') :
    Closes name F leak (temporary x >>= f) w₀ w :=
  ((ends_temporary hx h.custody).imp (fun _ _ h' => h') fun _ _ h' =>
    Follows.fails ⟨h.trans h'.1,h'.2⟩).bind fun o w' ⟨h',hlt,hm⟩ =>
      hf o w' (h.trans h') h'.scratch (Nat.lt_of_le_of_lt h.created hlt) hm fun ho =>
        Nat.not_lt_of_le (h.custody.counted ((h.custody.live o).mpr (.inr (.inr ho)))) hlt

/-- A new table is not foreign. -/
theorem Custody.not_foreign (h : w.Custody F) (ho : w.store.created < o.index) : ¬F o := fun hf =>
  Nat.not_lt_of_le (h.counted ((h.live o).mpr (.inl hf))) ho

theorem Custody.pair_not_foreign (h : w.Custody F) (ho : w.store.created < o.index)
    (hl : w.store.created < l.index) : ∀ i ∈ (⟨o,l⟩ : SubgraphTables).ids, ¬F i := by
  intro i hi
  rcases List.mem_pair.mp hi with rfl|rfl
  · exact h.not_foreign ho
  · exact h.not_foreign hl

/-- Two new scratch tables are kept. -/
theorem Custody.keepPair (h : w.Custody F) (ho : o ∈ w.scratch) (hl : l ∈ w.scratch)
    (hne : o ≠ l) : Custody (fun i => F i ∨ i ∈ (⟨o,l⟩ : SubgraphTables).ids)
      { w with scratch := (w.scratch.filter (· ≠ o)).filter (· ≠ l) } :=
  ((h.keep ho).keep (List.mem_filter.mpr ⟨hl,by simpa using hne.symm⟩)).congr fun i => by
    simp only [SubgraphTables.ids,List.mem_cons,List.not_mem_nil,or_false,or_assoc]

theorem keys_insert_subset (registry : OrderedMap String SubgraphTables) (name : String)
    (t : SubgraphTables) : (registry.insert name t).keys ⊆ name :: registry.keys := by
  intro n hn
  rw [OrderedMap.keys_insert,mem_insertOrdered] at hn
  exact List.mem_cons.mpr hn

/-- Two new scratch tables become an entry, or they are stranded. -/
theorem closes_put (h₀ : w₀.Custody F) (h : Follows F w₀ w) (ho : w₀.store.created < o.index)
    (hl : w₀.store.created < l.index) (hom : o ∈ w.scratch) (hlm : l ∈ w.scratch) (hne : o ≠ l) :
    Closes name F (some name) (do
      let o ← keep o
      let l ← keep l
      put name o (some l)) w₀ w := by
  have hkept := h.custody.keepPair hom hlm hne
  have hforeign := h₀.pair_not_foreign ho hl
  cases hn : w.registry.find? name with
  | some t =>
    have hk : name ∈ w.registry.keys := OrderedMap.find?_isSome_iff.mp (by rw [hn]; rfl)
    have hc : w.registry.contains name = true := OrderedMap.contains_iff.mpr hk
    refine .of_error (e:=.state (.tablesExist name)) (t:=⟨w.store,w.registry,
      (w.scratch.filter (· ≠ o)).filter (· ≠ l)⟩) ?_ (.inr ⟨⟨name,rfl,h.registry hk,rfl⟩,o,l,hne,
        ho,hl,hkept.congr fun i => ?_,h.data,h.created,List.subset_cons_of_subset _ h.registry⟩)
    · simp only [Workspace.keep,put,bind_apply,modify_apply,pure_apply,get_apply,hc,if_true,
        refuseState_apply]
    · simp [SubgraphTables.ids]
  | none =>
    have hc : w.registry.contains name = false := by
      rw [OrderedMap.contains,hn]
      rfl
    refine .of_ok (a:=⟨⟩) (t:=⟨w.store,w.registry.insert name ⟨o,l⟩,
      (w.scratch.filter (· ≠ o)).filter (· ≠ l)⟩) ?_ ⟨hkept.put hforeign hne hn,h.data,h.created,
        List.Subset.trans (keys_insert_subset _ _ _) (List.cons_subset_cons _ h.registry)⟩
    simp only [Workspace.keep,put,bind_apply,modify_apply,pure_apply,get_apply,hc,
      Bool.false_eq_true,if_false]

/-- Tables that are there can be released, whatever the registry holds. -/
theorem Custody.releasePair (h : w.Custody fun i => F i ∨ i ∈ t.ids) (hne : t.objects ≠ t.links)
    (registry : OrderedMap String SubgraphTables) : releasePair t { w with registry := registry } =
      .ok () { w with store := w.store.discard t.ids, registry := registry } := by
  have hholds : ∀ i ∈ t.ids, ∃ cols rows, w.store.Holds i cols rows := fun i hi => by
    obtain ⟨table,ht⟩ := Option.isSome_iff_exists.mp ((h.live i).mpr (.inl (.inr hi)))
    exact ⟨table.columns,table.rows,ht⟩
  obtain ⟨cols,rows,ho⟩ := hholds t.objects List.mem_cons_self
  obtain ⟨cols',rows',hl⟩ := hholds t.links (List.mem_cons_of_mem _ List.mem_cons_self)
  exact releasePair_ok (w:={ w with registry := registry }) ho hl hne

/-- Two new tables take the place of an entry, if there is one. -/
theorem Custody.ends_replace (h : w.Custody fun i => F i ∨ i ∈ t.ids) (hF : ∀ i ∈ t.ids, ¬F i)
    (hne : t.objects ≠ t.links) {E : Error → Workspace → Prop} :
    Ends (replace name t) w (fun _ w' => Settles name F w w' ∧ w'.scratch = w.scratch) E := by
  cases hp : w.registry.find? name with
  | none =>
    refine .of_ok (a:=⟨⟩) (t:={ w with registry := w.registry.insert name t }) ?_
      ⟨⟨h.put hF hne hp,.refl _,Nat.le_refl _,keys_insert_subset _ _ _⟩,rfl⟩
    simp only [replace,bind_apply,modify_apply,pure_apply,get_apply,hp]
  | some old =>
    have hold : ∀ i ∈ old.ids, ¬F i ∧ i ∉ t.ids := fun i hi =>
      not_or.mp (h.owned ⟨name,old,hp,hi⟩).1
    have hdiff : old ≠ t := fun he => (hold t.objects (by rw [he]; exact List.mem_cons_self)).2
      List.mem_cons_self
    have hgone : (w.registry.erase name).find? name = none :=
      (OrderedMap.find?_erase _ _ _).trans (if_pos rfl)
    -- The old tables are foreign once their entry is gone.
    have hout : Custody (fun i => F i ∨ i ∈ old.ids)
        { w with registry := w.registry.insert name t } := by
      have hboth : Custody (fun i => (F i ∨ i ∈ old.ids) ∨ i ∈ t.ids)
          { w with registry := w.registry.erase name } :=
        (h.evict hp).congr fun i => or_right_comm
      refine (hboth.put (fun i hi hf => ?_) hne hgone).of_find? (fun n => ?_) ?_
      · exact hf.elim (hF i hi) fun hi' => (hold i hi').2 hi
      · simp only [OrderedMap.find?_insert,OrderedMap.find?_erase]
        by_cases hn : n = name <;> simp [hn]
      · rw [OrderedMap.keys_insert]
        exact pairwise_insertOrdered h.ordered
    refine .of_ok (a:=⟨⟩) (t:=⟨w.store.discard old.ids,w.registry.insert name t,w.scratch⟩) ?_
      ⟨⟨hout.discard fun i hi => (hold i hi).1,⟨rfl,rfl,rfl,rfl⟩,Nat.le_refl _,
        keys_insert_subset _ _ _⟩,rfl⟩
    simp only [replace,bind_apply,modify_apply,get_apply,hp]
    rw [if_pos hdiff]
    exact hout.releasePair (h.pair hp) _

/-- Two new scratch tables take the place of an entry, if there is one. -/
theorem closes_replace (h₀ : w₀.Custody F) (h : Follows F w₀ w) (ho : w₀.store.created < o.index)
    (hl : w₀.store.created < l.index) (hom : o ∈ w.scratch) (hlm : l ∈ w.scratch) (hne : o ≠ l) :
    Closes name F leak (do
      let o ← keep o
      let l ← keep l
      replace name ⟨o,l⟩) w₀ w := by
  have hforeign := h₀.pair_not_foreign ho hl
  refine Ends.bind (P:=fun a w' => o = a ∧ w' = { w with scratch := w.scratch.filter (· ≠ o) })
    (.of_ok rfl ⟨rfl,rfl⟩) fun _ _ ⟨ha,hw⟩ => ?_
  subst ha hw
  refine Ends.bind (P:=fun a w' => l = a ∧
    w' = { w with scratch := (w.scratch.filter (· ≠ o)).filter (· ≠ l) })
    (.of_ok rfl ⟨rfl,rfl⟩) fun _ _ ⟨ha,hw⟩ => ?_
  subst ha hw
  exact ((h.custody.keepPair hom hlm hne).ends_replace hforeign hne).imp
    (fun _ _ h' => ⟨h'.1.custody,h.data.trans h'.1.data,Nat.le_trans h.created h'.1.created,
      List.Subset.trans h'.1.registry (List.cons_subset_cons _ h.registry)⟩)
    fun _ _ h' => h'

/-- When the scratch tables are released, those put aside are there again. -/
theorem Custody.close {scratch : List TableId} (h : w.Custody fun i => F i ∨ i ∈ scratch)
    (hF : ∀ i ∈ scratch, ¬F i) : Custody F { w.releaseScratch with scratch := scratch } :=
  (h.untrack.discard fun _ hi => h.scratch hi).track hF

/-- Work with scratch tables of its own leaves none of them behind. -/
theorem Closes.withScratch (w₀ : Workspace) {x : WorkStep α} (hs : w.scratch = w₀.scratch)
    (hF : ∀ i ∈ w₀.scratch, ¬F i ∧ i.index ≤ w₀.store.created)
    (h : Closes name (fun i => F i ∨ i ∈ w₀.scratch) leak x w₀ { w with scratch := [] }) :
    Ends (withScratch x) w (fun _ w' => Restores name F w₀ w')
      (Fails (Restores name) F leak w₀) := by
  have hclose : ∀ {G : TableId → Prop} {w' : Workspace}, (∀ i ∈ w₀.scratch, ¬G i) →
      Settles name (fun i => G i ∨ i ∈ w₀.scratch) w₀ w' →
        Restores name G w₀ { w'.releaseScratch with scratch := w.scratch } := fun hG h' => by
    rw [hs]
    exact ⟨⟨h'.custody.close hG,⟨h'.data.objects,h'.data.links,h'.data.containers,
      h'.data.failsCommits⟩,h'.created,h'.registry⟩,rfl⟩
  refine ends_withScratch (h.imp (fun _ _ h' => hclose (fun i hi => (hF i hi).1) h') fun e w' h' => ?_)
  rcases h' with ⟨hn,h'⟩|⟨hst,o,l,hne,ho,hl,h'⟩
  · exact .inl ⟨hn,hclose (fun i hi => (hF i hi).1) h'⟩
  · refine .inr ⟨hst,o,l,hne,ho,hl,hclose (fun i hi hf => ?_)
      ⟨h'.custody.congr fun i => or_right_comm,h'.data,h'.created,h'.registry⟩⟩
    have hle := (hF i hi).2
    rcases hf with hf|rfl|rfl
    · exact (hF i hi).1 hf
    · omega
    · omega

end GraphPattern.Workspace
