import GraphPattern.Proofs.Execution.Modes
import GraphPattern.Proofs.Custody.Replay

/-!
# What runs leave behind

After a run there are the tables that there were before it, whether it has succeeded or not, unless
it has failed at a step whose tables were stranded: then there are two more.
-/

namespace GraphPattern

open Step Workspace

variable {α β : Type} {w w' w'' : Workspace} {F : TableId → Prop} {leak : Option String}
  {name : String}

namespace Workspace

/-! ## Work with and without scratch tables of its own -/

/-- The work leaves all tables in their places, though perhaps with other scratch tables. -/
def Guards (F : TableId → Prop) (x : WorkStep α) : Prop :=
  ∀ w, w.Custody F → Ends x w (fun _ w' => w'.Custody F) fun _ w' => w'.Custody F

/-- All tables are in their places, with the scratch tables there were. -/
structure Secures (F : TableId → Prop) (w w' : Workspace) : Prop where
  /-- Every table has its place. -/
  custody : w'.Custody F
  /-- The same tables are to be released. -/
  scratch : w'.scratch = w.scratch

/-- The work leaves all tables in their places, and the scratch tables that there are. -/
def Tends (F : TableId → Prop) (x : WorkStep α) : Prop :=
  ∀ w, w.Custody F → Ends x w (fun _ w' => Secures F w w') fun _ w' => Secures F w w'

theorem Secures.refl (h : w.Custody F) : Secures F w w := ⟨h,rfl⟩

theorem Secures.trans (h : Secures F w w') (h' : Secures F w' w'') : Secures F w w'' :=
  ⟨h'.custody,h'.scratch.trans h.scratch⟩

theorem Drafts.guards {x : WorkStep α} (hx : Drafts F x) : Guards F x := fun w hw =>
  (hx w hw).imp (fun _ _ h => h.custody) fun _ _ h => h.1.custody

theorem Tends.guards {x : WorkStep α} (hx : Tends F x) : Guards F x := fun w hw =>
  (hx w hw).imp (fun _ _ h => h.custody) fun _ _ h => h.custody

theorem Guards.bind {x : WorkStep α} {f : α → WorkStep β} (hx : Guards F x)
    (hf : ∀ a, Guards F (f a)) : Guards F (x >>= f) := fun w hw =>
  (hx w hw).bind fun a w₁ h₁ => hf a w₁ h₁

theorem Tends.bind {x : WorkStep α} {f : α → WorkStep β} (hx : Tends F x)
    (hf : ∀ a, Tends F (f a)) : Tends F (x >>= f) := fun w hw =>
  (hx w hw).bind fun a w₁ h₁ =>
    (hf a w₁ h₁.custody).imp (fun _ _ h₂ => h₁.trans h₂) fun _ _ h₂ => h₁.trans h₂

theorem Tends.pure (a : α) : Tends F (pure a : WorkStep α) := fun _ hw => .of_ok rfl (.refl hw)

theorem Tends.throw (e : Error) : Tends F (throw e : WorkStep α) := fun _ hw =>
  .of_error rfl (.refl hw)

/-- A step on the data leaves the tables in their places. -/
theorem Custody.retained (hw : w.Custody F) {s : Store}
    (hs : s.tables = w.store.tables ∧ s.created = w.store.created) :
    Secures F w { w with store := s } := by
  have hlive : ∀ i, s.Live i ↔ w.store.Live i := fun i => by rw [Store.Live,Store.Live,hs.1]
  exact ⟨⟨fun {i} hi => hs.2 ▸ hw.counted ((hlive i).mp hi),fun i => (hlive i).trans (hw.live i),
    hw.ordered,hw.pair,hw.apart,hw.owned,hw.scratch⟩,rfl⟩

theorem Tends.data {x : StoreStep α} (hx : Store.Retains x) : Tends F (liftM x : WorkStep α) :=
  fun w hw => ends_lift ((hx w.store).imp (fun _ _ h => hw.retained h) fun _ _ h => hw.retained h)

theorem Tends.attempt {x : StoreStep Unit} (hx : Store.Retains x) : Tends F (attempt x) :=
  fun w hw => by
    have h := hx w.store
    rw [Ends] at h
    cases hr : x w.store with
    | ok a s =>
      rw [hr] at h
      exact .of_ok (a:=none) (t:={ w with store := s })
        (by rw [Workspace.attempt,EStateM.run,hr]) (hw.retained h)
    | error e s =>
      rw [hr] at h
      exact .of_ok (a:=some e) (t:={ w with store := s })
        (by rw [Workspace.attempt,EStateM.run,hr]) (hw.retained h)

theorem Tends.mapM {f : α → WorkStep β} (hf : ∀ a, Tends F (f a)) :
    ∀ as : List α, Tends F (as.mapM f)
  | [] => .pure _
  | a :: as => by
    rw [List.mapM_cons]
    exact (hf a).bind fun _ => (Tends.mapM hf as).bind fun _ => .pure _

theorem Tends.forM {f : α → WorkStep PUnit} (hf : ∀ a, Tends F (f a)) :
    ∀ as : List α, Tends F (as.forM f)
  | [] => .pure _
  | a :: as => (hf a).bind fun _ => Tends.forM hf as

/-- Work with scratch tables of its own releases them. -/
theorem Tends.withScratch {x : WorkStep α} (hx : ∀ F, Guards F x) : Tends F (withScratch x) :=
  fun _ hw => ends_withScratch ((hx _ _ hw.untrack).imp
    (fun _ _ h => ⟨h.close fun _ hi => hw.scratch hi,rfl⟩)
    fun _ _ h => ⟨h.close fun _ hi => hw.scratch hi,rfl⟩)

/-- All tables are in their places, and the data are the same. -/
structure Rests (F : TableId → Prop) (w w' : Workspace) : Prop extends Secures F w w' where
  /-- The data are the same. -/
  data : w.store.SameData w'.store

theorem Rests.refl (h : w.Custody F) : Rests F w w := ⟨.refl h,.refl _⟩

theorem Rests.trans (h : Rests F w w') (h' : Rests F w' w'') : Rests F w w'' :=
  ⟨h.toSecures.trans h'.toSecures,h.data.trans h'.data⟩

theorem Restores.rests (h : Restores name F w w') : Rests F w w' := ⟨⟨h.custody,h.scratch⟩,h.data⟩

/-! ## Entries -/

theorem Tends.releaseEntry (name : String) : Tends F (releaseEntry name) := fun w hw => by
  cases ht : w.registry.find? name with
  | none => exact .of_error (bind_of_error (take_none ht) _) (.refl hw)
  | some t =>
    have hout := hw.evict ht
    refine .of_ok (a:=⟨⟩) ((bind_of_ok (take_eq ht) _).trans (hout.releasePair (hw.pair ht) _)) ?_
    exact ⟨hout.discard fun i hi => (hw.owned ⟨name,t,ht,hi⟩).1,rfl⟩

/-- The tables of an entry that was taken become scratch tables of some work. -/
theorem Tends.takeInto {f : SubgraphTables → WorkStep β} (hf : ∀ F t, Guards F (f t)) :
    Tends F (do
      let tables ← take name
      Workspace.withScratch do
        let _ ← trackPair tables
        f tables) := fun w hw => by
  cases ht : w.registry.find? name with
  | none => exact .of_error (bind_of_error (take_none ht) _) (.refl hw)
  | some t =>
    have hown : ∀ i ∈ t.ids, ¬(F i ∨ i ∈ w.scratch) := fun i hi =>
      not_or.mpr (hw.owned ⟨name,t,ht,hi⟩)
    have hout : Custody (fun i => F i ∨ i ∈ w.scratch)
        ⟨w.store,w.registry.erase name,t.ids⟩ :=
      ((hw.evict ht).untrack.congr fun i => or_right_comm).track (w:=⟨_,_,[]⟩) hown
    refine .after (take_eq ht) (ends_withScratch (.after (trackPair_eq t _) ?_))
    exact (hf _ t _ hout).imp (fun _ _ h => ⟨h.close fun _ hi => hw.scratch hi,rfl⟩)
      fun _ _ h => ⟨h.close fun _ hi => hw.scratch hi,rfl⟩

theorem not_owns_empty {s : Store} {scratch : List TableId} {i : TableId} :
    ¬Owns ⟨s,.empty,scratch⟩ i := by
  rintro ⟨_,_,⟨⟩,_⟩

/-- The tables of the registry are released with it. -/
theorem Custody.dropRegistry (h : w.Custody F) (hs : w.scratch = []) :
    w.dropRegistry.store.Consists F := by
  have hall : ∀ (es : List (String × SubgraphTables)) (s : Store), Custody F ⟨s,⟨es⟩,[]⟩ →
      ∃ s', (releaseAll (es.map Prod.snd) ⟨s,.empty,[]⟩).2 = ⟨s',.empty,[]⟩ ∧
        Custody F ⟨s',.empty,[]⟩ := by
    intro es
    induction es with
    | nil => exact fun s hc => ⟨s,rfl,hc⟩
    | cons e es ih =>
      intro s hc
      obtain ⟨n,t⟩ := e
      have hfound : (⟨(n,t) :: es⟩ : OrderedMap String SubgraphTables).find? n = some t := by
        rw [OrderedMap.find?,OrderedMap.findEntry,if_pos rfl]
      have herase : (⟨(n,t) :: es⟩ : OrderedMap String SubgraphTables).erase n = ⟨es⟩ := by
        have hne : ∀ e ∈ es, e.1 ≠ n := fun e he =>
          fun heq => String.lt_irrefl n (by
            have hlt := List.rel_of_pairwise_cons hc.ordered (List.mem_map_of_mem he)
            rwa [heq] at hlt)
        rw [OrderedMap.erase,List.filter_cons_of_neg (by simp),
          List.filter_eq_self.mpr fun e he => by simpa using hne e he]
      have hout := hc.evict hfound
      rw [herase] at hout
      have hrelease : Workspace.releasePair t ⟨s,.empty,[]⟩ = .ok ⟨⟩ ⟨s.discard t.ids,.empty,[]⟩ :=
        hout.releasePair (hc.pair hfound) .empty
      obtain ⟨s',hs',hc'⟩ := ih _ (hout.discard fun i hi => (hc.owned ⟨n,t,hfound,hi⟩).1)
      refine ⟨s',?_,hc'⟩
      rw [List.map_cons,releaseAll,EStateM.run,hrelease]
      exact hs'
  obtain ⟨s',hs',hc⟩ := hall w.registry.entries w.store (by rw [← hs]; exact h)
  have hdrop : w.dropRegistry.store = s' := by
    rw [Workspace.dropRegistry,OrderedMap.values,hs,hs']
  rw [hdrop]
  exact ⟨hc.counted,fun i => (hc.live i).trans (by simp [not_owns_empty])⟩

end Workspace

/-- The name of the entry that a step puts into the registry after it has kept the tables. -/
def PlanStep.stranding (s : PlanStep) : Option String := Rule.stranding s.step.rule s.replay

namespace Execution

/-! ## The steps of a plan -/

variable {label : String}

/-- A label changes nothing but the error. -/
theorem ends_labelled {work : WorkStep α} {P : α → Workspace → Prop} {E : Error → Workspace → Prop}
    (h : Ends work w P fun e w' => E (e.inStep label) w') : Ends (labelled label work) w P E := by
  rw [Ends] at h ⊢
  rw [labelled,EStateM.run]
  cases hx : work w with
  | ok a w' =>
    rw [hx] at h
    exact h
  | error e w' =>
    rw [hx] at h
    exact h

theorem strands_inStep {e : Error} : Strands leak w (e.inStep label) ↔ Strands leak w e := by
  refine exists_congr fun n => and_congr_right fun _ => and_congr_right fun _ => ?_
  cases e <;> simp [Error.inStep]

theorem not_strands_store {e : StoreError} : ¬Strands leak w (.store e) := by
  rintro ⟨_,_,_,⟨⟩⟩

/-- The rows of some items are copied out of a container. -/
theorem ends_itemTables (container : String) (items : List String) (hw : w.Custody F) :
    Ends (liftM (Store.itemTables container items) : WorkStep (TableId × TableId)) w
      (fun t w' => Custody (fun i => F i ∨ i ∈ (⟨t.1,t.2⟩ : SubgraphTables).ids) w' ∧
        (∀ i ∈ (⟨t.1,t.2⟩ : SubgraphTables).ids, ¬F i) ∧ t.1 ≠ t.2 ∧
        ∃ s, w' = { w with store := s } ∧ w.store.SameData s ∧ w.store.created ≤ s.created)
      fun e w' => (∃ e', e = .store e') ∧ ∃ s, w' = { w with store := s } ∧ w.store.Spared s := by
  refine ends_lift ((Store.ends_itemTables container items hw.counted).imp (fun t s h => ?_)
    fun e s h => ⟨⟨e,rfl⟩,s,rfl,h⟩)
  obtain ⟨s₁,h₁,h₂⟩ := h
  refine ⟨((hw.added h₁).added h₂).congr fun i => ?_,fun i hi => ?_,fun he => ?_,s,rfl,
    h₁.data.trans h₂.data,?_⟩
  · rw [SubgraphTables.ids,List.mem_pair,or_assoc]
  · rcases List.mem_pair.mp hi with rfl|rfl
    · exact hw.not_foreign h₁.fresh
    · exact fun hf => (hw.added h₁).not_foreign h₂.fresh (.inl hf)
  · exact Nat.not_lt_of_le h₁.bounded (he ▸ h₂.fresh)
  · exact Nat.le_trans (Nat.le_trans (Nat.le_of_lt h₁.fresh) h₁.bounded)
      (Nat.le_trans (Nat.le_of_lt h₂.fresh) h₂.bounded)

/-- A step leaves all tables in their places, unless tables are stranded. -/
theorem ends_runStep (config : ExecutionConfig) (label : String) {s : PlanStep}
    (hs : s.step.rule ∈ Rule.builtIn) (mode : StepMode) (hw : w.Custody F) :
    Ends (runStep config label s mode) w
      (fun _ w' => Rests F w w' ∧ w'.registry.keys ⊆ s.step.result.joinedName :: w.registry.keys)
      (Fails Rests F s.stranding w) := by
  cases mode with
  | skip => exact .of_ok rfl ⟨.refl hw,List.subset_cons_self _ _⟩
  | fetch container =>
    refine Ends.bind (ends_labelled ((ends_itemTables container _ hw).imp (fun _ _ h => h)
      fun e w' h => ?_)) fun t w₁ h₁ => ?_
    · obtain ⟨⟨e,rfl⟩,s',rfl,h⟩ := h
      exact .inl ⟨strands_inStep.not.mpr not_strands_store,⟨hw.spared h,rfl⟩,h.data⟩
    · obtain ⟨hc,hF,hne,s',rfl,hdata,-⟩ := h₁
      exact (hc.ends_replace hF hne).imp (fun _ _ h => ⟨⟨⟨h.1.custody,h.2⟩,hdata.trans h.1.data⟩,
        h.1.registry⟩) fun _ _ h => h
  | execute =>
    refine ends_labelled (Ends.bind ((Rule.leaves_replay hs hw s.replay).imp (fun _ _ h => h)
      fun e w' h => ?_) fun _ w₁ h₁ => ?_)
    · exact h.imp (fun h => ⟨strands_inStep.not.mpr h.1,h.2.rests⟩) fun ⟨hst,o,l,hne,ho,hl,h⟩ =>
        ⟨strands_inStep.mpr hst,o,l,hne,ho,hl,h.rests⟩
    · split
      · refine ends_lift ((Store.spares_commit _ h₁.custody.counted).imp (fun _ _ h => ?_)
          fun e _ h => ?_)
        · exact ⟨⟨⟨h₁.custody.spared h,h₁.scratch⟩,h₁.data.trans h.data⟩,h₁.registry⟩
        · exact .inl ⟨strands_inStep.not.mpr not_strands_store,⟨h₁.custody.spared h,h₁.scratch⟩,
            h₁.data.trans h.data⟩
      · exact .of_ok rfl ⟨h₁.rests,h₁.registry⟩

/-- One of the steps keeps the tables of its result although there is an entry of its name: there
was one before, or an earlier step has written it. -/
def Clashes (names : List String) (steps : List PlanStep) (n : String) : Prop :=
  ∃ before s after, steps = before ++ s :: after ∧ s.stranding = some n ∧
    (n ∈ names ∨ ∃ t ∈ before, t.step.result.joinedName = n)

theorem Clashes.cons {names names' : List String} {steps : List PlanStep} {n : String}
    (h : Clashes names' steps n) {s : PlanStep}
    (hs : names' ⊆ s.step.result.joinedName :: names) : Clashes names (s :: steps) n := by
  obtain ⟨before,t,after,rfl,ht,hn⟩ := h
  refine ⟨s :: before,t,after,rfl,ht,?_⟩
  rcases hn with hn|⟨u,hu,hn⟩
  · rcases List.mem_cons.mp (hs hn) with rfl|hn
    · exact .inr ⟨s,List.mem_cons_self,rfl⟩
    · exact .inl hn
  · exact .inr ⟨u,List.mem_cons_of_mem _ hu,hn⟩

/-- Two tables that were not there before are stranded, since the steps clash. -/
def Abandons (rel : (TableId → Prop) → Prop) (F : TableId → Prop) (names : List String)
    (steps : List PlanStep) (e : Error) : Prop :=
  ∃ n, Clashes names steps n ∧ e = .state (.tablesExist n) ∧
    ∃ o l, o ≠ l ∧ ¬F o ∧ ¬F l ∧ rel fun i => F i ∨ i = o ∨ i = l

/-- The steps of a plan leave all tables in their places, unless tables are stranded. -/
theorem ends_runSteps (config : ExecutionConfig) (total : Nat) :
    ∀ (steps : List (PlanStep × StepMode)) (position : Nat) (w : Workspace), w.Custody F →
      (∀ p ∈ steps, p.1.step.rule ∈ Rule.builtIn) →
      Ends (runSteps config total position steps) w (fun _ w' => Rests F w w') fun e w' =>
        Rests F w w' ∨ Abandons (fun G => Rests G w w') F w.registry.keys (steps.map Prod.fst) e
  | [], _, _, hw, _ => .of_ok rfl (.refl hw)
  | (s,mode) :: steps, position, w, hw, hs => by
    refine Ends.bind ((ends_runStep config _ (hs _ List.mem_cons_self) mode hw).imp (fun _ _ h => h)
      fun e w' h => ?_) fun _ w₁ h₁ => ?_
    · refine h.imp And.right fun ⟨⟨n,hl,hn,he⟩,o,l,hne,ho,hl',h⟩ => ?_
      exact ⟨n,⟨[],s,_,rfl,hl,.inl hn⟩,he,o,l,hne,hw.not_foreign ho,hw.not_foreign hl',h⟩
    · refine (ends_runSteps config total steps (position+1) w₁ h₁.1.custody
        fun p hp => hs p (List.mem_cons_of_mem _ hp)).imp (fun _ _ h => h₁.1.trans h) fun e w' h => ?_
      refine h.imp h₁.1.trans fun ⟨n,hn,he,o,l,hne,ho,hl,h⟩ => ?_
      exact ⟨n,hn.cons h₁.2,he,o,l,hne,ho,hl,⟨⟨h.custody,h.scratch.trans h₁.1.scratch⟩,
        h₁.1.data.trans h.data⟩⟩

/-! ## What is done before and after the steps -/

/-- The store without the container of the name. -/
def cleared (destination : String) (s : Store) : Store :=
  { s with containers := s.containers.erase destination }

/-- Room is made for a container, unless there is one that is not to be replaced. -/
theorem ends_clearDestination (config : ExecutionConfig) (destination : String) (w : Workspace) :
    Ends (clearDestination config destination) w
      (fun _ w' => (destination ∈ w.store.containers.keys → config.replaceExisting = true) ∧
        w' = { w with store := cleared destination w.store })
      fun _ w' => w' = w := by
  have hhas : (liftM (Store.hasContainer destination) : WorkStep Bool) w =
      .ok (w.store.containers.contains destination) w := by
    simp only [lift_apply,Store.hasContainer,bind_apply,get_apply,pure_apply]
  refine .after hhas ?_
  cases hc : w.store.containers.contains destination with
  | false =>
    have hk : destination ∉ w.store.containers.keys := fun hk => by
      rw [OrderedMap.contains_iff.mpr hk] at hc
      cases hc
    refine .of_ok rfl ⟨fun h => absurd h hk,?_⟩
    rw [cleared,OrderedMap.erase_of_not_mem hk]
  | true =>
    have hk : destination ∈ w.store.containers.keys := OrderedMap.contains_iff.mp hc
    cases hr : config.replaceExisting with
    | false => exact .of_error rfl rfl
    | true =>
      have hdelete : (liftM (Store.deleteContainer destination) : WorkStep Unit) w = .ok ⟨⟩
          { w with store := cleared destination w.store } := by
        rw [lift_apply,deleteContainer_ok hk,cleared]
      exact .of_ok (a:=⟨⟩) hdelete ⟨fun _ => rfl,rfl⟩

theorem tends_releaseFetched (finalName : String) (steps : List (PlanStep × StepMode)) :
    Tends F (releaseFetched finalName steps) :=
  .forM (fun name w hw => .after (get_apply w) <| by
    split
    · exact Tends.releaseEntry name w hw
    · exact Tends.pure _ w hw) _

theorem tends_commitContainer (destination : String) : Tends F (commitContainer destination) :=
  (Tends.attempt Store.retains_commit).bind fun failure => by
    split
    · exact .pure _
    · exact (Tends.attempt (Store.retains_deleteContainer _)).bind fun _ => .throw _

theorem tends_storeResult (finalName destination : String) :
    Tends F (storeResult finalName destination) := fun w hw => .after (get_apply w) <| by
  by_cases hn : w.registry.keys = [finalName]
  · rw [if_neg (not_not_intro hn)]
    refine Tends.takeInto (fun F t => ?_) w hw
    refine (Drafts.store (Store.spares_rowCount _)).guards.bind fun objects => ?_
    refine (Drafts.store (Store.spares_rowCount _)).guards.bind fun links => ?_
    refine (Tends.data (Store.retains_createContainer _ _ _)).guards.bind fun _ => ?_
    exact (tends_commitContainer _).guards.bind fun _ => (Tends.pure _).guards
  · rw [if_pos hn]
    exact .of_error rfl (.refl hw)

theorem guards_itemTables (container : String) (items : List String)
    {f : TableId × TableId → WorkStep β} (hf : ∀ t, Guards F (f t)) : Guards F (do
      let t ← liftM (Store.itemTables container items)
      let _ ← trackPair ⟨t.1,t.2⟩
      f t) := fun w hw => by
  refine Ends.bind ((ends_itemTables container items hw).imp (fun _ _ h => h) fun e w' h => ?_)
    fun t w₁ h₁ => ?_
  · obtain ⟨-,s,rfl,h⟩ := h
    exact hw.spared h
  · obtain ⟨hc,hF,-⟩ := h₁
    exact .after (trackPair_eq _ _) (hf _ _ (hc.track hF))

theorem tends_deriveLinks (container : String) (request : DerivedLink) :
    Tends F (deriveLinks container request) := by
  refine .withScratch fun F => Guards.bind ?_ fun pairs => ?_
  · refine guards_itemTables _ _ fun sources => guards_itemTables _ _ fun targets => ?_
    exact ((Drafts.temporary (Store.adds_join _ _ _ _)).bind fun _ =>
      .temporary (Store.adds_derive _ _)).guards
  · refine (Drafts.store (Store.spares_alter _ _)).guards.bind fun _ => ?_
    refine (Tends.data (Store.retains_createLinks _)).guards.bind fun created => ?_
    exact (Drafts.store Store.spares_commit).guards.bind fun _ => (Tends.pure _).guards

theorem tends_deriveAllLinks (container : String) (requests : List DerivedLink) :
    Tends F (deriveAllLinks container requests) :=
  (Tends.mapM (tends_deriveLinks container) requests).bind fun _ => .pure _

/-! ## The whole run -/

/-- A plan leaves all tables in their places, unless tables are stranded. -/
theorem ends_runPlan (config : ExecutionConfig) (q : Query) {steps : List PlanStep}
    (hs : ∀ s ∈ steps, s.step.rule ∈ Rule.builtIn) (finalName destination : String)
    (hw : w.Custody F) :
    Ends (runPlan config q steps finalName destination) w (fun _ w' => Secures F w w')
      fun e w' => Secures F w w' ∨
        Abandons (fun G => Secures G w w') F w.registry.keys steps e := by
  refine Ends.bind ((ends_clearDestination config destination w).imp (fun _ _ h => h)
    fun _ _ h => .inl (by rw [h]; exact .refl hw)) fun _ w₁ h₁ => ?_
  obtain ⟨-,rfl⟩ := h₁
  have hw₁ : Secures F w { w with store := cleared destination w.store } := hw.retained ⟨rfl,rfl⟩
  have hplanned : (steps.zip (modes (q.cachedItems .whole) finalName steps).1).map Prod.fst =
      steps := List.map_fst_zip (Nat.le_of_eq (length_modes _ _ _).symm)
  have hsteps := ends_runSteps config steps.length
    (steps.zip (modes (q.cachedItems .whole) finalName steps).1) 1 _ hw₁.custody
    fun p hp => hs p.1 (List.of_mem_zip hp).1
  rw [hplanned] at hsteps
  refine Ends.bind (hsteps.imp (fun _ _ h => hw₁.trans h.toSecures) fun e w' h => ?_)
    fun _ w₂ h₂ => ?_
  · exact h.imp (fun h => hw₁.trans h.toSecures) fun ⟨n,hn,he,o,l,hne,ho,hl,h⟩ =>
      ⟨n,hn,he,o,l,hne,ho,hl,h.custody,h.scratch⟩
  have hrest : Tends F (conclude q (planned q finalName steps) finalName destination) :=
    (tends_releaseFetched _ _).bind fun _ => (tends_storeResult _ _).bind fun _ =>
      (Tends.data (Store.retains_subgraphCount _)).bind fun _ =>
        (tends_deriveAllLinks _ _).bind fun _ => .pure _
  exact (hrest w₂ h₂.custody).imp (fun _ _ h => h₂.trans h) fun _ _ h => .inl (h₂.trans h)

theorem counted_empty : Store.empty.Counted := by
  rintro i ⟨⟩

theorem custody_fresh {s : Store} (hs : s.Counted) : Custody (fun i => s.Live i) (.fresh s) where
  counted := hs
  live i := by simp [Workspace.fresh,not_owns_empty]
  ordered := .nil
  pair := by rintro _ _ ⟨⟩
  apart := by rintro _ _ _ _ ⟨⟩
  owned hi := absurd hi not_owns_empty
  scratch hi := absurd hi List.not_mem_nil

theorem ends_onStore {work : WorkStep α} {s : Store} {P : α → Store → Prop}
    {E : Error → Store → Prop} (h : Ends work (.fresh s) (fun a w => P a w.dropRegistry.store)
      fun e w => E e w.dropRegistry.store) : Ends (onStore work) s P E := by
  rw [Ends] at h
  split at h
  · rename_i a w hx
    refine .of_ok (a:=a) (t:=w.dropRegistry.store) ?_ h
    rw [onStore,EStateM.run,hx]
  · rename_i e w hx
    refine .of_error (e:=e) (t:=w.dropRegistry.store) ?_ h
    rw [onStore,EStateM.run,hx]

/-- A run refuses a plan without steps and leaves the store alone, or it runs the steps. -/
theorem ends_run_of {config : ExecutionConfig} {plan : Plan} {destination : String} {s : Store}
    {P : ExecutionReport → Store → Prop} {E : Error → Store → Prop}
    (h : ∀ q finalName, Ends (onStore (runPlan config q plan.steps finalName destination)) s P E)
    (hE : ∀ e, E e s) : Ends (run config plan destination) s P E := by
  rw [run]
  split
  · exact .of_error rfl (hE _)
  · split
    · exact h _ _
    · exact .of_error rfl (hE _)

/-- A run leaves the tables that there were, unless tables are stranded. -/
theorem ends_run (config : ExecutionConfig) {plan : Plan}
    (hr : ∀ s ∈ plan.steps, s.step.rule ∈ Rule.builtIn) (destination : String) {s : Store}
    (hs : s.Counted) : Ends (run config plan destination) s (fun _ s' => s'.Consists s.Live)
      fun e s' => s'.Consists s.Live ∨ Abandons s'.Consists s.Live [] plan.steps e := by
  have hdrop : ∀ {G w}, Secures G (.fresh s) w → w.dropRegistry.store.Consists G := fun h =>
    h.custody.dropRegistry h.scratch
  refine ends_run_of (fun q finalName => ends_onStore ?_) fun _ => .inl ⟨hs,fun _ => Iff.rfl⟩
  exact (ends_runPlan config q hr finalName destination (custody_fresh hs)).imp
    (fun _ _ h => hdrop h) fun _ _ h => h.imp hdrop fun ⟨n,hn,he,o,l,hne,ho,hl,h⟩ =>
      ⟨n,hn,he,o,l,hne,ho,hl,hdrop h⟩

end Execution

end GraphPattern
