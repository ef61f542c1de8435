import GraphPattern.Proofs.Custody.Store

/-!
# Who releases a table

Every table that is there is held by an entry of the registry, waits among the scratch tables, or is
foreign: it was there before, or nobody releases it any more. No table is two of these. Work moves
tables from one to another, and what it makes becomes a scratch table at once; so at the end of the
work, when the scratch tables are released, there are the foreign tables and those of the registry.
-/

namespace GraphPattern

open Step

/-- The error is not that tables exist already under the name of an entry to be put. -/
def Error.Unclashed (e : Error) : Prop := ∀ n, e ≠ .state (.tablesExist n)

namespace Workspace

variable {α β : Type} {w w' w'' w₀ : Workspace} {F F' : TableId → Prop} {name : String}
  {t : SubgraphTables} {o l i : TableId}

/-- A table is held by an entry of the registry. -/
def Owns (w : Workspace) (i : TableId) : Prop :=
  ∃ n t, w.registry.find? n = some t ∧ i ∈ t.ids

/-- Every table has its place, and the foreign ones are as given. -/
structure Custody (F : TableId → Prop) (w : Workspace) : Prop where
  /-- The numbers of all tables were given. -/
  counted : w.store.Counted
  /-- A table is foreign, held by an entry, or a scratch table. -/
  live : ∀ i, w.store.Live i ↔ F i ∨ w.Owns i ∨ i ∈ w.scratch
  /-- The entries stand in order. -/
  ordered : w.registry.keys.Pairwise (· < ·)
  /-- The tables of an entry are two. -/
  pair : ∀ {n t}, w.registry.find? n = some t → t.objects ≠ t.links
  /-- Different entries share no table. -/
  apart : ∀ {m n t u}, w.registry.find? m = some t → w.registry.find? n = some u → m ≠ n →
    ∀ i ∈ t.ids, i ∉ u.ids
  /-- The tables of entries are neither foreign nor scratch tables. -/
  owned : ∀ {i}, w.Owns i → ¬F i ∧ i ∉ w.scratch
  /-- Scratch tables are not foreign. -/
  scratch : ∀ {i}, i ∈ w.scratch → ¬F i

namespace Custody

theorem congr (h : w.Custody F) (hF : ∀ i, F' i ↔ F i) : w.Custody F' := by
  obtain rfl : F' = F := funext fun i => propext (hF i)
  exact h

/-- Only what is found in the registry counts. -/
theorem of_find? (h : w.Custody F) {registry : OrderedMap String SubgraphTables}
    (hr : ∀ n, registry.find? n = w.registry.find? n) (ho : registry.keys.Pairwise (· < ·)) :
    Custody F { w with registry := registry } := by
  have howns : ∀ i, Owns { w with registry := registry } i ↔ w.Owns i := fun i =>
    exists_congr fun n => by rw [hr]
  refine ⟨h.counted,fun i => by rw [howns]; exact h.live i,ho,fun hn => ?_,fun hm hn => ?_,
    fun hi => h.owned ((howns _).mp hi),h.scratch⟩
  · rw [hr] at hn
    exact h.pair hn
  · rw [hr] at hm hn
    exact h.apart hm hn

/-- Steps on the store that make no table. -/
theorem spared (h : w.Custody F) {s : Store} (hs : w.store.Spared s) :
    Custody F { w with store := s } :=
  ⟨hs.counted h.counted,fun i => (hs.live i).trans (h.live i),h.ordered,h.pair,h.apart,h.owned,
    h.scratch⟩

/-- A scratch table that is to be kept is foreign at first. -/
theorem keep (h : w.Custody F) (ho : o ∈ w.scratch) :
    Custody (fun i => F i ∨ i = o) { w with scratch := w.scratch.filter (· ≠ o) } where
  counted := h.counted
  live i := by
    change w.store.Live i ↔ (F i ∨ i = o) ∨ w.Owns i ∨ i ∈ w.scratch.filter (· ≠ o)
    rw [h.live i,List.mem_filter,decide_eq_true_eq]
    by_cases hi : i = o
    · exact iff_of_true (.inr (.inr (hi ▸ ho))) (.inl (.inr hi))
    · simp only [hi,or_false,ne_eq,not_false_eq_true,and_true]
  ordered := h.ordered
  pair := h.pair
  apart := h.apart
  owned hi := ⟨fun hf => hf.elim (h.owned hi).1 fun he => (h.owned hi).2 (he ▸ ho),
    fun hm => (h.owned hi).2 (List.mem_filter.mp hm).1⟩
  scratch hm := by
    obtain ⟨hm,hn⟩ := List.mem_filter.mp hm
    exact fun hf => hf.elim (h.scratch hm) (by simpa using hn)

/-- Foreign tables become scratch tables. -/
theorem track {ids : List TableId} (h : w.Custody fun i => F i ∨ i ∈ ids)
    (hF : ∀ i ∈ ids, ¬F i) : Custody F { w with scratch := w.scratch ++ ids } where
  counted := h.counted
  live i := by
    change w.store.Live i ↔ F i ∨ w.Owns i ∨ i ∈ w.scratch ++ ids
    rw [h.live i,List.mem_append,or_comm (a:=i ∈ w.scratch),or_assoc,
      or_left_comm (a:=i ∈ ids) (b:=w.Owns i)]
  ordered := h.ordered
  pair := h.pair
  apart := h.apart
  owned ho := ⟨fun hf => (h.owned ho).1 (.inl hf),fun hm => (List.mem_append.mp hm).elim
    (h.owned ho).2 fun hm => (h.owned ho).1 (.inr hm)⟩
  scratch hm hf := (List.mem_append.mp hm).elim (fun hm => h.scratch hm (.inl hf)) fun hm =>
    hF _ hm hf

/-- Scratch tables that are put aside are foreign for a while. -/
theorem untrack (h : w.Custody F) :
    Custody (fun i => F i ∨ i ∈ w.scratch) { w with scratch := [] } where
  counted := h.counted
  live i := by
    change w.store.Live i ↔ (F i ∨ i ∈ w.scratch) ∨ w.Owns i ∨ i ∈ []
    rw [h.live i,or_assoc,or_iff_left List.not_mem_nil,or_comm (a:=w.Owns i)]
  ordered := h.ordered
  pair := h.pair
  apart := h.apart
  owned ho := ⟨fun hf => hf.elim (h.owned ho).1 (h.owned ho).2,List.not_mem_nil⟩
  scratch hm := absurd hm List.not_mem_nil

/-- A table that was made is foreign at first. -/
theorem added (h : w.Custody F) {s : Store} (hs : w.store.Added o s) :
    Custody (fun i => F i ∨ i = o) { w with store := s } where
  counted := hs.counted h.counted
  live i := by
    change s.Live i ↔ (F i ∨ i = o) ∨ w.Owns i ∨ i ∈ w.scratch
    rw [hs.live,h.live,or_right_comm]
  ordered := h.ordered
  pair := h.pair
  apart := h.apart
  owned {i} hi := by
    refine ⟨fun hf => hf.elim (h.owned hi).1 fun he => ?_,(h.owned hi).2⟩
    exact hs.not_live h.counted (he ▸ (h.live i).mpr (.inr (.inl hi)))
  scratch {i} hi hf := hf.elim (h.scratch hi) fun he =>
    hs.not_live h.counted (he ▸ (h.live i).mpr (.inr (.inr hi)))

/-- Tables that are released are no longer foreign. -/
theorem discard {ids : List TableId} (h : w.Custody fun i => F i ∨ i ∈ ids)
    (hF : ∀ i ∈ ids, ¬F i) : Custody F { w with store := w.store.discard ids } where
  counted hi := h.counted (Store.live_discard.mp hi).1
  live i := by
    change (w.store.discard ids).Live i ↔ F i ∨ w.Owns i ∨ i ∈ w.scratch
    rw [Store.live_discard,h.live i]
    constructor
    · rintro ⟨(hf|hm)|hr,hn⟩
      · exact .inl hf
      · exact absurd hm hn
      · exact .inr hr
    · rintro (hf|ho|hs)
      · exact ⟨.inl (.inl hf),fun hm => hF i hm hf⟩
      · exact ⟨.inr (.inl ho),fun hm => (h.owned ho).1 (.inr hm)⟩
      · exact ⟨.inr (.inr hs),fun hm => h.scratch hs (.inr hm)⟩
  ordered := h.ordered
  pair := h.pair
  apart := h.apart
  owned ho := ⟨fun hf => (h.owned ho).1 (.inl hf),(h.owned ho).2⟩
  scratch hs hf := h.scratch hs (.inl hf)

/-- The tables of an entry that is taken out are foreign at first. -/
theorem evict (h : w.Custody F) (ht : w.registry.find? name = some t) :
    Custody (fun i => F i ∨ i ∈ t.ids) { w with registry := w.registry.erase name } := by
  have hfind : ∀ {n u}, (w.registry.erase name).find? n = some u ↔
      n ≠ name ∧ w.registry.find? n = some u := fun {n u} => by
    rw [OrderedMap.find?_erase]
    by_cases hn : n = name <;> simp [hn]
  have howns : ∀ {i}, Owns { w with registry := w.registry.erase name } i ↔
      w.Owns i ∧ i ∉ t.ids := fun {i} => by
    constructor
    · rintro ⟨n,u,hu,hi⟩
      obtain ⟨hn,hu⟩ := hfind.mp hu
      exact ⟨⟨n,u,hu,hi⟩,h.apart hu ht hn i hi⟩
    · rintro ⟨⟨n,u,hu,hi⟩,hit⟩
      refine ⟨n,u,hfind.mpr ⟨fun hn => ?_,hu⟩,hi⟩
      rw [hn,ht] at hu
      cases hu
      exact hit hi
  have hown : ∀ {i}, i ∈ t.ids → w.Owns i := fun hi => ⟨name,t,ht,hi⟩
  refine ⟨h.counted,fun i => ?_,?_,fun hn => h.pair (hfind.mp hn).2,
    fun hm hn => h.apart (hfind.mp hm).2 (hfind.mp hn).2,fun hi => ?_,fun hs hf => ?_⟩
  · change w.store.Live i ↔ (F i ∨ i ∈ t.ids) ∨ _ ∨ i ∈ w.scratch
    rw [h.live i,howns]
    by_cases hi : i ∈ t.ids
    · exact iff_of_true (.inr (.inl (hown hi))) (.inl (.inr hi))
    · simp only [hi,or_false,not_false_eq_true,and_true]
  · rw [OrderedMap.keys_erase]
    exact h.ordered.filter _
  · obtain ⟨ho,hn⟩ := howns.mp hi
    exact ⟨fun hf => hf.elim (h.owned ho).1 hn,(h.owned ho).2⟩
  · exact hf.elim (h.scratch hs) fun hi => (h.owned (hown hi)).2 hs

/-- Two foreign tables become an entry. -/
theorem put (h : w.Custody fun i => F i ∨ i ∈ t.ids) (hF : ∀ i ∈ t.ids, ¬F i)
    (hne : t.objects ≠ t.links) (hn : w.registry.find? name = none) :
    Custody F { w with registry := w.registry.insert name t } := by
  have hfind : ∀ {n u}, (w.registry.insert name t).find? n = some u ↔
      (n = name ∧ u = t) ∨ w.registry.find? n = some u := fun {n u} => by
    rw [OrderedMap.find?_insert]
    by_cases hn' : n = name
    · simp [hn',hn,eq_comm]
    · simp [hn']
  have howns : ∀ {i}, Owns { w with registry := w.registry.insert name t } i ↔
      w.Owns i ∨ i ∈ t.ids := fun {i} => by
    constructor
    · rintro ⟨n,u,hu,hi⟩
      rcases hfind.mp hu with ⟨-,rfl⟩|hu
      · exact .inr hi
      · exact .inl ⟨n,u,hu,hi⟩
    · rintro (⟨n,u,hu,hi⟩|hi)
      · exact ⟨n,u,hfind.mpr (.inr hu),hi⟩
      · exact ⟨name,t,hfind.mpr (.inl ⟨rfl,rfl⟩),hi⟩
  have hforeign : ∀ {n u}, w.registry.find? n = some u → ∀ i ∈ u.ids, i ∉ t.ids :=
    fun {n u} hu i hi hit => (h.owned ⟨n,u,hu,hi⟩).1 (.inr hit)
  refine ⟨h.counted,fun i => ?_,?_,fun hu => ?_,fun hm hu hmn => ?_,fun hi => ?_,
    fun hs hf => h.scratch hs (.inl hf)⟩
  · change w.store.Live i ↔ F i ∨ _ ∨ i ∈ w.scratch
    rw [h.live i,howns,or_assoc,or_assoc,or_left_comm (a:=i ∈ t.ids)]
  · rw [OrderedMap.keys_insert]
    exact pairwise_insertOrdered h.ordered
  · rcases hfind.mp hu with ⟨-,rfl⟩|hu
    · exact hne
    · exact h.pair hu
  · intro i hi hi'
    rcases hfind.mp hm with ⟨rfl,rfl⟩|hm'
    · rcases hfind.mp hu with ⟨rfl,-⟩|hu'
      · exact hmn rfl
      · exact hforeign hu' i hi' hi
    · rcases hfind.mp hu with ⟨rfl,rfl⟩|hu'
      · exact hforeign hm' i hi hi'
      · exact h.apart hm' hu' hmn i hi hi'
  · rcases howns.mp hi with ho|ht
    · exact ⟨fun hf => (h.owned ho).1 (.inl hf),(h.owned ho).2⟩
    · exact ⟨hF _ ht,fun hs => h.scratch hs (.inr ht)⟩

end Custody

/-! ## Work on scratch tables -/

/-- The foreign tables are those they were, the data too, and no scratch table is gone. -/
structure Follows (F : TableId → Prop) (w w' : Workspace) : Prop where
  /-- Every table has its place. -/
  custody : w'.Custody F
  /-- The data are the same. -/
  data : w.store.SameData w'.store
  /-- No number is given twice. -/
  created : w.store.created ≤ w'.store.created
  /-- What was to be released still is. -/
  scratch : w.scratch ⊆ w'.scratch
  /-- There is no new entry. -/
  registry : w'.registry.keys ⊆ w.registry.keys

theorem Follows.refl (h : w.Custody F) : Follows F w w :=
  ⟨h,.refl _,Nat.le_refl _,List.Subset.refl _,List.Subset.refl _⟩

theorem Follows.trans (h : Follows F w w') (h' : Follows F w' w'') : Follows F w w'' :=
  ⟨h'.custody,h.data.trans h'.data,Nat.le_trans h.created h'.created,
    List.Subset.trans h.scratch h'.scratch,List.Subset.trans h'.registry h.registry⟩

/-- The work makes nothing but scratch tables, whether it answers or fails. -/
def Drafts (F : TableId → Prop) (x : WorkStep α) : Prop :=
  ∀ w, w.Custody F → Ends x w (fun _ w' => Follows F w w') fun e w' =>
    Follows F w w' ∧ e.Unclashed

theorem Drafts.pure (a : α) : Drafts F (pure a : WorkStep α) := fun _ h => .of_ok rfl (.refl h)

theorem Drafts.bind {x : WorkStep α} {f : α → WorkStep β} (hx : Drafts F x)
    (hf : ∀ a, Drafts F (f a)) : Drafts F (x >>= f) := fun w hw =>
  (hx w hw).bind fun a w₁ h₁ =>
    (hf a w₁ h₁.custody).imp (fun _ _ h₂ => h₁.trans h₂) fun _ _ h₂ => ⟨h₁.trans h₂.1,h₂.2⟩

/-- A question about a query. -/
theorem Drafts.ask {x : Except Error α} (hx : ∀ e, x = .error e → e.Unclashed) :
    Drafts F (liftM x : WorkStep α) := fun _ hw =>
  .lift (fun _ _ => .refl hw) fun e he => ⟨.refl hw,hx e he⟩

theorem ends_lift {x : StoreStep α} {P : α → Workspace → Prop} {E : Error → Workspace → Prop}
    (h : Ends x w.store (fun a s => P a { w with store := s })
      fun e s => E (.store e) { w with store := s }) : Ends (liftM x : WorkStep α) w P E := by
  rw [Ends] at h ⊢
  rw [lift_apply]
  cases hx : x w.store with
  | ok a s =>
    rw [hx] at h
    exact h
  | error e s =>
    rw [hx] at h
    exact h

theorem Custody.follows (h : w.Custody F) {s : Store} (hs : w.store.Spared s) :
    Follows F w { w with store := s } :=
  ⟨h.spared hs,hs.data,hs.created,List.Subset.refl _,List.Subset.refl _⟩

theorem Drafts.store {x : StoreStep α} (hx : Store.Spares x) : Drafts F (liftM x : WorkStep α) :=
  fun _ hw => ends_lift ((hx _ hw.counted).imp (fun _ _ hs => hw.follows hs) fun _ _ hs =>
    ⟨hw.follows hs,nofun⟩)

/-- A scratch table is made. -/
theorem ends_temporary {x : StoreStep TableId} (hx : Store.Adds x) (hw : w.Custody F) :
    Ends (temporary x) w
      (fun id w' => Follows F w w' ∧ w.store.created < id.index ∧ id ∈ w'.scratch)
      fun e w' => Follows F w w' ∧ e.Unclashed := by
  refine Ends.bind (P:=fun id w' => ∃ s, w.store.Added id s ∧ w' = { w with store := s })
    (ends_lift ((hx _ hw.counted).imp (fun _ s hs => ⟨s,hs,rfl⟩) fun _ _ hs =>
      ⟨hw.follows hs,nofun⟩)) fun id w' hw' => ?_
  obtain ⟨s,hs,rfl⟩ := hw'
  refine .of_ok (a:=id) rfl ⟨⟨?_,hs.data,Nat.le_trans (Nat.le_of_lt hs.fresh) hs.bounded,
    List.subset_append_left _ _,List.Subset.refl _⟩,hs.fresh,
      List.mem_append_right _ List.mem_cons_self⟩
  refine Custody.track ((hw.added hs).congr fun i => or_congr_right List.mem_singleton)
    fun i hi hf => hs.not_live hw.counted ((hw.live _).mpr (.inl ?_))
  exact List.mem_singleton.mp hi ▸ hf

theorem Drafts.temporary {x : StoreStep TableId} (hx : Store.Adds x) :
    Drafts F (temporary x) := fun _ hw =>
  (ends_temporary hx hw).imp (fun _ _ h => h.1) fun _ _ h => h

theorem Drafts.require (name : String) : Drafts F (require name) := fun w hw => by
  cases ht : w.registry.find? name with
  | none =>
    refine .of_error (e:=.state (.noTables name)) (t:=w) ?_ ⟨.refl hw,nofun⟩
    simp only [Workspace.require,bind_apply,get_apply,ht,refuseState_apply]
  | some t =>
    refine .of_ok (a:=t) (t:=w) ?_ (.refl hw)
    simp only [Workspace.require,bind_apply,get_apply,ht,pure_apply]

theorem take_eq {t : SubgraphTables} (ht : w.registry.find? name = some t) :
    take name w = .ok t { w with registry := w.registry.erase name } := by
  simp only [take,require,bind_apply,get_apply,ht,pure_apply,modify_apply]

theorem take_none (ht : w.registry.find? name = none) :
    take name w = .error (.state (.noTables name)) w := by
  simp only [take,require,bind_apply,get_apply,ht,refuseState_apply]

theorem trackPair_eq (t : SubgraphTables) (w : Workspace) :
    trackPair t w = .ok t { w with scratch := w.scratch ++ t.ids } := by
  simp only [trackPair,track,bind_apply,modify_apply,pure_apply,SubgraphTables.ids,
    List.append_assoc,List.cons_append,List.nil_append]

/-- The tables of an entry become scratch tables. -/
theorem Drafts.take (name : String) : Drafts F (do
    let tables ← take name
    trackPair tables) := fun w hw => by
  cases ht : w.registry.find? name with
  | none => exact .of_error (bind_of_error (take_none ht) _) ⟨.refl hw,nofun⟩
  | some t =>
    refine .of_ok (a:=t) ((bind_of_ok (take_eq ht) _).trans (trackPair_eq t _))
      ⟨(hw.evict ht).track fun i hi => (hw.owned ⟨name,t,ht,hi⟩).1,.refl _,Nat.le_refl _,
        List.subset_append_left _ _,?_⟩
    rw [OrderedMap.keys_erase]
    exact List.filter_subset_self _

end Workspace

end GraphPattern
