import GraphPattern.Proofs.Step
import GraphPattern.Proofs.Store.Shape
import GraphPattern.Proofs.Workspace
import GraphPattern.Store.Container

/-!
# Which tables there are

A step on the store either makes one table, which it answers with, or none. This holds however its
operands look like: a step that fails has made none, and if it had, it has released it again. In no
case do the data change.
-/

namespace GraphPattern.Store

open Step

variable {α β : Type} {s s' s'' : Store} {id i : TableId}

/-- The store has a table of this number. -/
def Live (s : Store) (i : TableId) : Prop := (s.tables.find? i).isSome = true

/-- The numbers of all tables were given. -/
def Counted (s : Store) : Prop := ∀ {i}, s.Live i → i.index ≤ s.created

/-- The store has the given tables and no others. -/
structure Consists (s : Store) (G : TableId → Prop) : Prop where
  /-- The numbers of all tables were given. -/
  counted : s.Counted
  /-- These tables are there. -/
  live : ∀ i, s.Live i ↔ G i

/-- The data are the same and the same tables are there, though perhaps changed. -/
structure Spared (s s' : Store) : Prop where
  /-- The data are the same. -/
  data : s.SameData s'
  /-- No number is given twice. -/
  created : s.created ≤ s'.created
  /-- The same tables are there. -/
  live : ∀ i, s'.Live i ↔ s.Live i

/-- The data are the same and there is one table more. -/
structure Added (s : Store) (id : TableId) (s' : Store) : Prop where
  /-- The data are the same. -/
  data : s.SameData s'
  /-- The table has a new number. -/
  fresh : s.created < id.index
  /-- Its number was given. -/
  bounded : id.index ≤ s'.created
  /-- It is there besides those before. -/
  live : ∀ i, s'.Live i ↔ s.Live i ∨ i = id

theorem Spared.refl (s : Store) : s.Spared s := ⟨.refl s,Nat.le_refl _,fun _ => Iff.rfl⟩

theorem Spared.trans (h : s.Spared s') (h' : s'.Spared s'') : s.Spared s'' :=
  ⟨h.data.trans h'.data,Nat.le_trans h.created h'.created,fun i => (h'.live i).trans (h.live i)⟩

theorem Spared.counted (h : s.Spared s') (hs : s.Counted) : s'.Counted := fun {i} hi =>
  Nat.le_trans (hs ((h.live i).mp hi)) h.created

theorem Added.counted (h : s.Added id s') (hs : s.Counted) : s'.Counted := fun {i} hi => by
  rcases (h.live i).mp hi with hi|rfl
  · exact Nat.le_trans (hs hi) (Nat.le_trans (Nat.le_of_lt h.fresh) h.bounded)
  · exact h.bounded

theorem Added.not_live (h : s.Added id s') (hs : s.Counted) : ¬s.Live id := fun hi =>
  Nat.not_lt_of_le (hs hi) h.fresh

theorem Spared.added (h : s.Spared s') (h' : s'.Added id s'') : s.Added id s'' :=
  ⟨h.data.trans h'.data,Nat.lt_of_le_of_lt h.created h'.fresh,h'.bounded,fun i =>
    (h'.live i).trans (or_congr_left (h.live i))⟩

theorem Added.spared (h : s.Added id s') (h' : s'.Spared s'') : s.Added id s'' :=
  ⟨h.data.trans h'.data,h.fresh,Nat.le_trans h.bounded h'.created,fun i =>
    (h'.live i).trans (h.live i)⟩

theorem live_discard {ids : List TableId} : (s.discard ids).Live i ↔ s.Live i ∧ i ∉ ids := by
  rw [Live,Live,find?_discard]
  by_cases hi : i ∈ ids <;> simp [hi]

/-- The step makes no table, whether it answers or fails. -/
abbrev Spares (x : StoreStep α) : Prop :=
  ∀ s, s.Counted → Ends x s (fun _ s' => s.Spared s') fun _ s' => s.Spared s'

/-- The step makes the table that it answers with; if it fails, it makes none. -/
abbrev Adds (x : StoreStep TableId) : Prop :=
  ∀ s, s.Counted → Ends x s (fun id s' => s.Added id s') fun _ s' => s.Spared s'

/-! ## One step after another -/

theorem Spares.pure (a : α) : Spares (pure a : StoreStep α) := fun s _ => .of_ok rfl (.refl s)

theorem Spares.get : Spares (get : StoreStep Store) := fun s _ => .of_ok rfl (.refl s)

theorem Spares.throw (e : StoreError) : Spares (throw e : StoreStep α) := fun s _ =>
  .of_error rfl (.refl s)

theorem Spares.ofExcept (x : Except StoreError α) : Spares (ofExcept x : StoreStep α) := by
  cases x with
  | ok a => exact .pure a
  | error e => exact .throw e

theorem Spares.bind {x : StoreStep α} {f : α → StoreStep β} (hx : Spares x)
    (hf : ∀ a, Spares (f a)) : Spares (x >>= f) := fun s hs =>
  ((hx s hs).imp (fun _ _ h => h) fun _ _ h => h).bind fun a s₁ h₁ =>
    (hf a s₁ (h₁.counted hs)).imp (fun _ _ h₂ => h₁.trans h₂) fun _ _ h₂ => h₁.trans h₂

theorem Spares.adds {x : StoreStep α} {f : α → StoreStep TableId} (hx : Spares x)
    (hf : ∀ a, Adds (f a)) : Adds (x >>= f) := fun s hs =>
  (hx s hs).bind fun a s₁ h₁ =>
    (hf a s₁ (h₁.counted hs)).imp (fun _ _ h₂ => h₁.added h₂) fun _ _ h₂ => h₁.trans h₂

/-! ## Steps that make no table -/

theorem spares_table (id : TableId) : Spares (table id) :=
  Spares.get.bind fun s => by
    split
    · exact .pure _
    · exact .throw _

/-- Another table in the place of one that is there changes nothing but its contents. -/
theorem spares_alter (id : TableId) (operation : Table → Except StoreError Table) :
    Spares (alter id operation) := fun s _ => by
  cases hi : s.tables.find? id with
  | none =>
    refine .of_error (e:=.unknownTable id) (t:=s) ?_ (.refl s)
    have htable : table id s = .error (.unknownTable id) s := by
      simp only [table,bind_apply,get_apply,hi,throw_apply]
    exact bind_of_error htable _
  | some t =>
    have hholds : s.Holds id t.columns t.rows := hi
    have htable : table id s = .ok t s := table_of_holds hholds
    refine Ends.bind (.of_ok (P:=fun a s' => a = t ∧ s' = s) htable ⟨rfl,rfl⟩) fun a s' h => ?_
    obtain ⟨rfl,rfl⟩ := h
    cases ho : operation a with
    | error e => exact .of_error rfl (.refl _)
    | ok result =>
      refine .of_ok (a:=⟨⟩) (t:={ s' with tables := s'.tables.insert id result }) rfl
        ⟨⟨rfl,rfl,rfl,rfl⟩,Nat.le_refl _,fun i => ?_⟩
      rw [Live,Live,OrderedMap.find?_insert]
      by_cases hid : i = id
      · rw [if_pos hid,hid,hi]
        exact iff_of_true rfl rfl
      · rw [if_neg hid]

theorem spares_rowCount (id : TableId) : Spares (rowCount id) :=
  (spares_table id).bind fun _ => .pure _

theorem spares_container (name : String) : Spares (container name) :=
  Spares.get.bind fun s => by
    split
    · exact .pure _
    · exact .throw _

theorem spares_commit : Spares commit := fun s _ => by
  cases hc : s.failsCommits with
  | true =>
    refine .of_error (e:=.commitFailed) (t:=s) ?_ (.refl s)
    simp only [commit,bind_apply,get_apply,hc,if_true,throw_apply]
  | false =>
    refine .of_ok (a:=⟨⟩) (t:={ s with commits := s.commits + 1 }) ?_
      ⟨⟨rfl,rfl,rfl,rfl⟩,Nat.le_refl _,fun _ => Iff.rfl⟩
    simp only [commit,bind_apply,get_apply,hc,Bool.false_eq_true,if_false,modify_apply]

/-! ## Steps that make a table -/

theorem adds_insertTable (t : Table) : Adds (insertTable t) := fun s _ => by
  refine .of_ok (a:=⟨s.created+1⟩) rfl ⟨⟨rfl,rfl,rfl,rfl⟩,Nat.lt_succ_self _,Nat.le_refl _,
    fun i => ?_⟩
  rw [Live,Live,OrderedMap.find?_insert]
  by_cases hi : i = ⟨s.created+1⟩ <;> simp [hi]

theorem adds_derive (id : TableId) (operation : Table → Except StoreError Table) :
    Adds (derive id operation) :=
  (spares_table id).adds fun t => (Spares.ofExcept (operation t)).adds adds_insertTable

theorem adds_createTable (columns : List String) : Adds (createTable columns) := by
  rw [createTable]
  split
  · exact adds_insertTable _
  · exact fun s _ => .of_error rfl (.refl s)

theorem adds_join (left right : TableId) (on : List (String × String)) (columns : List JoinColumn) :
    Adds (join left right on columns) :=
  (spares_table left).adds fun _ => (spares_table right).adds fun _ =>
    (Spares.ofExcept _).adds adds_insertTable

theorem adds_antiJoin (left right : TableId) (on : List (String × String)) :
    Adds (antiJoin left right on) :=
  (spares_table left).adds fun _ => (spares_table right).adds fun _ =>
    (Spares.ofExcept _).adds adds_insertTable

theorem spares_unionRows (first : TableId) (layout : List String) :
    ∀ ids, Spares (unionRows first layout ids)
  | [] => .pure _
  | id :: ids => (spares_table id).bind fun _ => (Spares.ofExcept _).bind fun _ =>
      (spares_unionRows first layout ids).bind fun _ => .pure _

theorem adds_union : ∀ ids, Adds (union ids)
  | [] => fun s _ => .of_error rfl (.refl s)
  | id :: ids => (spares_table id).adds fun _ => (spares_unionRows id _ ids).adds fun _ =>
      adds_insertTable _

/-- A table that was made and cannot be changed is released. -/
theorem Adds.guarded {x : StoreStep TableId} {f : TableId → StoreStep Unit} (hx : Adds x)
    (hf : ∀ id, Spares (f id)) : Adds (do let id ← x; guarded id (f id)) := fun s hs =>
  (hx s hs).bind fun id s₁ h₁ => by
    have hstep := hf id s₁ (h₁.counted hs)
    rw [Ends] at hstep
    cases hok : f id s₁ with
    | ok _ s₂ =>
      rw [hok] at hstep
      refine .of_ok (a:=id) (t:=s₂) ?_ (h₁.spared hstep)
      rw [Store.guarded,EStateM.run,hok]
    | error e s₂ =>
      rw [hok] at hstep
      have h₂ := h₁.spared hstep
      refine .of_error (e:=e) (t:=s₂.discard [id]) ?_ ⟨⟨h₂.data.objects,h₂.data.links,
        h₂.data.containers,h₂.data.failsCommits⟩,
        Nat.le_trans (Nat.le_of_lt h₂.fresh) h₂.bounded,fun i => ?_⟩
      · rw [Store.guarded,EStateM.run,hok]
      · rw [live_discard,h₂.live,List.mem_singleton]
        constructor
        · rintro ⟨hi|hi,hne⟩
          · exact hi
          · exact absurd hi hne
        · exact fun hi => ⟨.inl hi,fun he => h₁.not_live hs (he ▸ hi)⟩

theorem adds_objectMatches (condition : Option Condition) (name : String) :
    Adds (objectMatches condition name) :=
  Adds.guarded (Spares.get.adds fun _ => adds_insertTable _) fun id =>
    (spares_alter id _).bind fun _ => (spares_alter id _).bind fun _ => spares_alter id _

theorem adds_edgeMatches (found : TableId) (column name : String) :
    Adds (edgeMatches found column name) :=
  Adds.guarded (adds_derive found _) fun id =>
    (spares_alter id _).bind fun _ => (spares_alter id _).bind fun _ => spares_alter id _

theorem adds_matchingLinks (condition : Option Condition) : Adds (matchingLinks condition) :=
  Spares.get.adds fun _ => adds_insertTable _

theorem adds_attributeValues (kind : SourceKind) (attr : String) :
    Adds (attributeValues kind attr) :=
  Spares.get.adds fun _ => adds_insertTable _

/-- The rows of some items are copied into two tables. -/
theorem ends_itemTables (name : String) (items : List String) (hs : s.Counted) :
    Ends (itemTables name items) s (fun t s'' => ∃ s', s.Added t.1 s' ∧ s'.Added t.2 s'')
      fun _ s' => s.Spared s' := by
  refine (spares_container name s hs).bind fun source s₁ h₁ => ?_
  refine Ends.bind ((adds_insertTable _ s₁ (h₁.counted hs)).imp (fun _ _ h => h₁.added h)
    fun _ _ h => h₁.trans h) fun o s₂ h₂ => ?_
  obtain ⟨l,s₃,hl,h₃⟩ : ∃ l s₃, insertTable (source.links.withText 2 items) s₂ = .ok l s₃ ∧
      s₂.Added l s₃ := ⟨_,_,rfl,(adds_insertTable _ s₂ (h₂.counted hs)).of_eq rfl⟩
  exact .of_ok (a:=(o,l)) (bind_of_ok hl _) ⟨s₂,h₂,h₃⟩

/-! ## Steps on the data -/

/-- The step touches no table, whether it answers or fails. -/
abbrev Retains (x : StoreStep α) : Prop :=
  ∀ s, Ends x s (fun _ s' => s'.tables = s.tables ∧ s'.created = s.created)
    fun _ s' => s'.tables = s.tables ∧ s'.created = s.created

theorem Retains.pure (a : α) : Retains (pure a : StoreStep α) := fun _ => .of_ok rfl ⟨rfl,rfl⟩

theorem Retains.get : Retains (get : StoreStep Store) := fun _ => .of_ok rfl ⟨rfl,rfl⟩

theorem Retains.throw (e : StoreError) : Retains (throw e : StoreStep α) := fun _ =>
  .of_error rfl ⟨rfl,rfl⟩

theorem Retains.ofExcept (x : Except StoreError α) : Retains (ofExcept x : StoreStep α) := by
  cases x with
  | ok a => exact .pure a
  | error e => exact .throw e

theorem Retains.modify {f : Store → Store} (hf : ∀ s, (f s).tables = s.tables ∧
    (f s).created = s.created) : Retains (modify f : StoreStep Unit) := fun s => .of_ok rfl (hf s)

theorem Retains.bind {x : StoreStep α} {f : α → StoreStep β} (hx : Retains x)
    (hf : ∀ a, Retains (f a)) : Retains (x >>= f) := fun s =>
  (hx s).bind fun a s₁ h₁ => (hf a s₁).imp (fun _ _ h₂ => ⟨h₂.1.trans h₁.1,h₂.2.trans h₁.2⟩)
    fun _ _ h₂ => ⟨h₂.1.trans h₁.1,h₂.2.trans h₁.2⟩

theorem retains_table (id : TableId) : Retains (table id) :=
  Retains.get.bind fun s => by
    split
    · exact .pure _
    · exact .throw _

theorem retains_container (name : String) : Retains (container name) :=
  Retains.get.bind fun s => by
    split
    · exact .pure _
    · exact .throw _

theorem retains_commit : Retains commit :=
  Retains.get.bind fun s => by
    split
    · exact (Retains.throw _).bind fun _ => .modify fun _ => ⟨rfl,rfl⟩
    · exact .modify fun _ => ⟨rfl,rfl⟩

theorem retains_subgraphCount (name : String) : Retains (subgraphCount name) :=
  (retains_container name).bind fun _ => .pure _

theorem retains_deleteContainer (name : String) : Retains (deleteContainer name) :=
  (retains_container name).bind fun _ => .modify fun _ => ⟨rfl,rfl⟩

theorem retains_hasContainer (name : String) : Retains (hasContainer name) :=
  Retains.get.bind fun _ => .pure _

theorem retains_checkFree (name : String) : Retains (checkFree name) :=
  (retains_hasContainer name).bind fun _ => by
    split
    · exact .throw _
    · exact .pure _

theorem retains_matchedColumns (id : TableId) : Retains (matchedColumns id) :=
  (retains_table id).bind fun _ => .ofExcept _

theorem retains_createContainer (name : String) (objects links : TableId) :
    Retains (createContainer name objects links) :=
  (retains_checkFree name).bind fun _ => (retains_matchedColumns _).bind fun _ =>
    (retains_matchedColumns _).bind fun _ => .modify fun _ => ⟨rfl,rfl⟩

theorem retains_createLinks (id : TableId) : Retains (createLinks id) :=
  (retains_table id).bind fun _ => (Retains.ofExcept _).bind fun created =>
    (Retains.modify fun s => by
      induction created generalizing s with
      | nil => exact ⟨rfl,rfl⟩
      | cons link links ih => exact ih _).bind fun _ => .pure _

/-! ## Calls -/

/-- The second store has the tables of the first one without the given ones, though perhaps changed,
and perhaps newer tables. -/
structure Develops (gone : List TableId) (s s' : Store) : Prop where
  /-- No number is given twice. -/
  created : s.created ≤ s'.created
  /-- The numbers of all tables were given. -/
  counted : s'.Counted
  /-- The other tables are still there. -/
  live : ∀ {i}, i.index ≤ s.created → (s'.Live i ↔ s.Live i ∧ i ∉ gone)

theorem Spared.develops (h : s.Spared s') (hs : s.Counted) : s.Develops [] s' :=
  ⟨h.created,h.counted hs,fun {i} _ => by simp [h.live i]⟩

theorem Added.develops (h : s.Added id s') (hs : s.Counted) : s.Develops [] s' := by
  refine ⟨Nat.le_trans (Nat.le_of_lt h.fresh) h.bounded,h.counted hs,fun {i} hi => ?_⟩
  have hne : i ≠ id := fun he => Nat.not_lt_of_le hi (he ▸ h.fresh)
  simp [h.live i,hne]

theorem develops_of_same (ht : s'.tables = s.tables) (hc : s'.created = s.created)
    (hs : s.Counted) : s.Develops [] s' := by
  have hlive : ∀ i, s'.Live i ↔ s.Live i := fun i => by rw [Live,Live,ht]
  refine ⟨Nat.le_of_eq hc.symm,fun {i} hi => ?_,fun {i} _ => by simp [hlive i]⟩
  rw [hc]
  exact hs ((hlive i).mp hi)

/-- Releasing a table takes this table and no other. -/
theorem develops_discard (ids : List TableId) (hs : s.Counted) :
    s.Develops ids (s.discard ids) where
  created := Nat.le_refl _
  counted := fun {_} hi => hs (live_discard.mp hi).1
  live := fun {_} _ => live_discard

namespace Call

/-- The tables that a call takes away if they are there. -/
def released : Call → List TableId
  | release id => [id]
  | _ => []

/-- What a step leaves behind, the call leaves behind that ignores its answer. -/
theorem develops_ignored {x : StoreStep α} {gone : List TableId}
    (h : Ends x s (fun _ t => s.Develops gone t) fun _ t => s.Develops gone t) :
    s.Develops gone (Step.after (do let _ ← x) s) :=
  after_of_ends (h.bind fun _ _ ht => .of_ok rfl ht)

theorem develops_of_adds {x : StoreStep TableId} (h : Adds x) (hs : s.Counted) :
    s.Develops [] (Step.after (do let _ ← x) s) :=
  develops_ignored ((h s hs).imp (fun _ _ ht => ht.develops hs) fun _ _ ht => ht.develops hs)

theorem develops_of_spares {x : StoreStep α} (h : Spares x) (hs : s.Counted) :
    Ends x s (fun _ t => s.Develops [] t) fun _ t => s.Develops [] t :=
  (h s hs).imp (fun _ _ ht => ht.develops hs) fun _ _ ht => ht.develops hs

theorem develops_of_retains {x : StoreStep α} (h : Retains x) (hs : s.Counted) :
    Ends x s (fun _ t => s.Develops [] t) fun _ t => s.Develops [] t :=
  (h s).imp (fun _ _ ht => develops_of_same ht.1 ht.2 hs) fun _ _ ht =>
    develops_of_same ht.1 ht.2 hs

theorem develops_release (id : TableId) (hs : s.Counted) :
    Ends (Store.release id) s (fun _ t => s.Develops [id] t) fun _ t => s.Develops [id] t := by
  cases hi : s.tables.find? id with
  | none =>
    have htable : table id s = .error (.unknownTable id) s := by
      simp only [table,bind_apply,get_apply,hi,throw_apply]
    refine .of_error (bind_of_error htable _) ⟨Nat.le_refl _,hs,fun {i} _ => ?_⟩
    have hne : s.Live i → i ≠ id := by
      rintro hlive rfl
      rw [Live,hi] at hlive
      cases hlive
    simpa using hne
  | some t =>
    have htable : table id s = .ok t s := table_of_holds hi
    refine .after htable (.of_ok rfl ?_)
    exact develops_discard [id] hs

/-- A call takes nothing away but what it is to release. -/
theorem develops_after (c : Call) (hs : s.Counted) : s.Develops c.released (c.after s) := by
  cases c with
  | createTable cols => exact develops_of_adds (adds_createTable cols) hs
  | columns id =>
    exact develops_ignored (develops_of_spares ((spares_table id).bind fun _ => .pure _) hs)
  | join l r on cols => exact develops_of_adds (adds_join l r on cols) hs
  | antiJoin l r on => exact develops_of_adds (adds_antiJoin l r on) hs
  | filter id condition => exact develops_of_adds (adds_derive id _) hs
  | distinct id cols => exact develops_of_adds (adds_derive id _) hs
  | renameColumn id old new => exact after_of_ends (develops_of_spares (spares_alter id _) hs)
  | addConstant id column value => exact after_of_ends (develops_of_spares (spares_alter id _) hs)
  | addRowNumber id column => exact after_of_ends (develops_of_spares (spares_alter id _) hs)
  | countBy id keys count => exact develops_of_adds (adds_derive id _) hs
  | union ids => exact develops_of_adds (adds_union ids) hs
  | copy id => exact develops_of_adds (adds_derive id _) hs
  | rowCount id => exact develops_ignored (develops_of_spares (spares_rowCount id) hs)
  | release id => exact after_of_ends (develops_release id hs)
  | matchingObjects condition =>
    exact develops_of_adds (Spares.get.adds fun _ => adds_insertTable _) hs
  | matchingLinks condition => exact develops_of_adds (adds_matchingLinks condition) hs
  | attributeValues kind attr => exact develops_of_adds (adds_attributeValues kind attr) hs
  | hasContainer name => exact develops_ignored (develops_of_retains (retains_hasContainer name) hs)
  | deleteContainer name =>
    exact after_of_ends (develops_of_retains (retains_deleteContainer name) hs)
  | createContainer name objects links =>
    exact after_of_ends (develops_of_retains (retains_createContainer name objects links) hs)
  | itemTables name items =>
    refine develops_ignored ((ends_itemTables name items hs).imp (fun t s₂ h => ?_)
      fun _ _ h => h.develops hs)
    obtain ⟨s₁,h₁,h₂⟩ := h
    have hd := h₁.develops hs
    have hd' := h₂.develops (h₁.counted hs)
    refine ⟨Nat.le_trans hd.created hd'.created,hd'.counted,fun {i} hi => ?_⟩
    rw [hd'.live (Nat.le_trans hi hd.created),hd.live hi]
    simp [released]
  | createLinks id => exact develops_ignored (develops_of_retains (retains_createLinks id) hs)
  | subgraphCount name =>
    exact develops_ignored (develops_of_retains (retains_subgraphCount name) hs)
  | commit => exact after_of_ends (develops_of_retains retains_commit hs)

end Call

/-- No table has a number that was not given. -/
theorem Reached.counted (h : s.Reached) : s.Counted := by
  induction h with
  | empty => exact nofun
  | object _ _ _ ih => exact ih
  | link _ _ _ ih => exact ih
  | @container s s' name objects links _ hs ih =>
    have hretains : Retains (addContainer name objects links) :=
      (retains_checkFree name).bind fun _ => .modify fun _ => ⟨rfl,rfl⟩
    obtain ⟨ht,hc⟩ := (hretains s).of_eq hs
    have hd : s.Develops [] s' := develops_of_same ht hc ih
    intro i hi
    exact hd.counted hi
  | commits _ _ ih => exact ih
  | call c _ ih => exact (Call.develops_after c ih).counted

end GraphPattern.Store
