import GraphPattern.Proofs.Store.Tables

/-!
# The registry of a run

The tables in the registry are all there, and no two entries share one. Work with scratch tables of
its own takes some entries, makes tables, and at last writes one entry; all other entries keep what
they hold.
-/

namespace GraphPattern

open Step

/-- Both tables of an entry. -/
def SubgraphTables.ids (t : SubgraphTables) : List TableId := [t.objects,t.links]

theorem SubgraphTables.objects_mem (t : SubgraphTables) : t.objects ∈ t.ids := List.mem_cons_self

theorem SubgraphTables.links_mem (t : SubgraphTables) : t.links ∈ t.ids :=
  List.mem_cons_of_mem _ List.mem_cons_self

theorem Store.find?_discard (s : Store) (ids : List TableId) (i : TableId) :
    (s.discard ids).tables.find? i = if i ∈ ids then none else s.tables.find? i := by
  rw [discard]
  induction ids generalizing s with
  | nil => simp
  | cons id ids ih =>
    have hrest := ih { s with tables := s.tables.erase id }
    simp only [List.foldl_cons,List.mem_cons] at hrest ⊢
    rw [hrest,OrderedMap.find?_erase]
    by_cases hi : i = id <;> by_cases hm : i ∈ ids <;> simp [hi,hm]

namespace Workspace

variable {w w' w'' : Workspace} {id : TableId} {cols : List String} {rows O L : Rows}
  {taken : List String}

theorem lift_apply {α : Type} (x : StoreStep α) (w : Workspace) : (liftM x : WorkStep α) w =
    match x w.store with
    | .ok a s => .ok a { w with store := s }
    | .error e s => .error (.store e) { w with store := s } := rfl

/-- A step on the store is taken on the store of the workspace. -/
theorem outcome_lift {α : Type} {x : StoreStep α} {P : α → Store → Prop} {F : Prop}
    (h : Outcome x w.store P F) :
    Outcome (liftM x : WorkStep α) w (fun a w' => ∃ s, P a s ∧ w' = { w with store := s }) F := by
  rw [Outcome] at h ⊢
  rw [lift_apply]
  cases hx : x w.store with
  | ok a s =>
    rw [hx] at h
    exact ⟨s,h,rfl⟩
  | error e s =>
    rw [hx] at h
    exact h

/-! ## Scratch tables -/

/-- The workspace has a table, whose number was given. -/
structure Has (w : Workspace) (id : TableId) (cols : List String) (rows : Rows) : Prop where
  /-- The number was given. -/
  bounded : id.index ≤ w.store.created
  /-- The table is there. -/
  holds : w.store.Holds id cols rows

/-- The second workspace came out of the first one by new scratch tables alone. -/
structure Scratches (w w' : Workspace) : Prop where
  /-- The registry is the same. -/
  registry : w'.registry = w.registry
  /-- The store has only grown. -/
  store : w.store.Grows w'.store
  /-- What is to be released besides is new. -/
  scratch : ∀ i ∈ w'.scratch, i ∈ w.scratch ∨ w.store.created < i.index

theorem Scratches.trans (h : w.Scratches w') (h' : w'.Scratches w'') : w.Scratches w'' :=
  ⟨h'.registry.trans h.registry,h.store.trans h'.store,fun i hi => by
    rcases h'.scratch i hi with hi|hi
    · exact h.scratch i hi
    · exact .inr (Nat.lt_of_le_of_lt h.store.created hi)⟩

theorem Has.grows (h : w.Has id cols rows) (hg : w.store.Grows w'.store) : w'.Has id cols rows :=
  ⟨Nat.le_trans h.bounded hg.created,hg.holds h.bounded h.holds⟩

theorem Scratches.has (h : w.Scratches w') (hh : w.Has id cols rows) : w'.Has id cols rows :=
  hh.grows h.store

/-- What is known of a scratch table that was made on the way from one workspace to another. -/
structure Made (w : Workspace) (id : TableId) (cols : List String) (rows : Rows)
    (w' : Workspace) : Prop where
  /-- Nothing else has changed. -/
  scratches : w.Scratches w'
  /-- The table is newer than those before. -/
  fresh : w.store.created < id.index
  /-- It is there. -/
  has : w'.Has id cols rows

/-- The step makes a table and besides nothing but scratch tables. -/
abbrev Makes (w : Workspace) (x : WorkStep TableId) (cols : List String) (rows : Rows) : Prop :=
  Outcome x w (fun id w' => w.Made id cols rows w') False

/-- Work goes on with the table that was made. -/
theorem Makes.bind {α : Type} {x : WorkStep TableId} {f : TableId → WorkStep α}
    {P : α → Workspace → Prop} {F : Prop} (h : w.Makes x cols rows)
    (hf : ∀ id w', w.Made id cols rows w' → Outcome (f id) w' P F) : Outcome (x >>= f) w P F :=
  Outcome.bind (h.imp (fun _ _ hm => hm) False.elim) hf

theorem Scratches.made (h : w.Scratches w') (hm : w'.Made id cols rows w'') :
    w.Made id cols rows w'' :=
  ⟨h.trans hm.scratches,Nat.lt_of_le_of_lt h.store.created hm.fresh,hm.has⟩

theorem makes_temporary {x : StoreStep TableId} (h : w.store.Makes x cols rows) :
    w.Makes (temporary x) cols rows := by
  refine (outcome_lift h).bind fun id w' hx => ?_
  obtain ⟨s,hm,rfl⟩ := hx
  refine .of_ok (a:=id) rfl ⟨⟨rfl,hm.grows,fun i hi => ?_⟩,hm.fresh,⟨hm.bounded,hm.holds⟩⟩
  rcases List.mem_append.mp hi with hi|hi
  · exact .inl hi
  · rw [List.mem_singleton.mp hi]
    exact .inr hm.fresh

/-! ## Entries -/

/-- The rows that an entry of the registry holds. -/
def Entry (w : Workspace) (name : String) (O L : Rows) : Prop :=
  ∃ e, w.registry.find? name = some e ∧ w.store.Holds e.objects Column.matched O ∧
    w.store.Holds e.links Column.matched L

/-- The tables of the registry are there, and each belongs to one entry. -/
structure Sound (w : Workspace) : Prop where
  /-- The tables of an entry are there. -/
  entry : ∀ {n e}, w.registry.find? n = some e →
    ∃ O L, w.Has e.objects Column.matched O ∧ w.Has e.links Column.matched L
  /-- They are two. -/
  pair : ∀ {n e}, w.registry.find? n = some e → e.objects ≠ e.links
  /-- Entries share no table. -/
  apart : ∀ {m n e f}, w.registry.find? m = some e → w.registry.find? n = some f → m ≠ n →
    ∀ i ∈ e.ids, i ∉ f.ids

/-- A registry is sound if its list of entries is. -/
theorem sound_of_entries
    (h : ∀ e ∈ w.registry.entries, e.2.objects ≠ e.2.links ∧ ∀ i ∈ e.2.ids,
      i.index ≤ w.store.created ∧ (w.store.tables.find? i).map Table.columns = some Column.matched)
    (ha : ∀ e ∈ w.registry.entries, ∀ f ∈ w.registry.entries, e.1 ≠ f.1 →
      ∀ i ∈ e.2.ids, i ∉ f.2.ids) : w.Sound where
  entry {n e} he := by
    have hi : ∀ i ∈ e.ids, ∃ rows, w.Has i Column.matched rows := fun i hi => by
      obtain ⟨hb,ht⟩ := (h _ (OrderedMap.mem_of_find? he)).2 i hi
      obtain ⟨⟨cols,rows⟩,ht,rfl⟩ := Option.map_eq_some_iff.mp ht
      exact ⟨rows,hb,ht⟩
    obtain ⟨O,ho⟩ := hi e.objects e.objects_mem
    obtain ⟨L,hl⟩ := hi e.links e.links_mem
    exact ⟨O,L,ho,hl⟩
  pair he := (h _ (OrderedMap.mem_of_find? he)).1
  apart he hf := ha _ (OrderedMap.mem_of_find? he) _ (OrderedMap.mem_of_find? hf)

theorem Sound.bounded (h : w.Sound) {n : String} {e : SubgraphTables}
    (he : w.registry.find? n = some e) : ∀ i ∈ e.ids, i.index ≤ w.store.created := by
  obtain ⟨O,L,ho,hl⟩ := h.entry he
  intro i hi
  rcases List.mem_cons.mp hi with rfl|hi
  · exact ho.bounded
  · rw [List.mem_singleton.mp hi]
    exact hl.bounded

theorem Entry.unique {n : String} {O' L' : Rows} (h : w.Entry n O L) (h' : w.Entry n O' L') :
    O = O' ∧ L = L' := by
  obtain ⟨e,he,ho,hl⟩ := h
  obtain ⟨f,hf,ho',hl'⟩ := h'
  rw [he] at hf
  cases hf
  rw [Store.Holds,ho] at ho'
  rw [Store.Holds,hl] at hl'
  cases ho'
  cases hl'
  exact ⟨rfl,rfl⟩

/-- An entry holds what it held if it is where it was and its tables are as they were. -/
theorem entry_congr {n : String} (hf : w'.registry.find? n = w.registry.find? n)
    (hk : ∀ {e}, w.registry.find? n = some e → ∀ i ∈ e.ids,
      w'.store.tables.find? i = w.store.tables.find? i) : w'.Entry n O L ↔ w.Entry n O L := by
  rw [Entry,Entry,hf]
  refine exists_congr fun e => and_congr_right fun he => ?_
  rw [Store.Holds,Store.Holds,hk he _ e.objects_mem,hk he _ e.links_mem]
  rfl

theorem Entry.mem_keys {n : String} (h : w.Entry n O L) : n ∈ w.registry.keys := by
  obtain ⟨e,he,-⟩ := h
  rw [← OrderedMap.find?_isSome_iff,he]
  rfl

/-- The rows of an entry after a step, if the step answers. -/
def rowsAfter? {α : Type} (step : WorkStep α) (w : Workspace) (n : String) :
    Option (Option Rows × Option Rows) :=
  match step w with
  | .ok _ w' => (w'.registry.find? n).map fun e =>
    ((w'.store.tables.find? e.objects).map Table.rows,
      (w'.store.tables.find? e.links).map Table.rows)
  | .error _ _ => none

theorem Entry.rowsAfter?_eq {α : Type} {step : WorkStep α} {a : α} {w' : Workspace} {n : String}
    (h : step w = .ok a w') (hn : w'.Entry n O L) : rowsAfter? step w n = some (some O,some L) := by
  obtain ⟨e,he,ho,hl⟩ := hn
  rw [Store.Holds] at ho hl
  simp only [rowsAfter?,h,he,ho,hl,Option.map_some]

theorem Sound.has (h : w.Sound) {n : String} {e : SubgraphTables}
    (he : w.registry.find? n = some e) (hn : w.Entry n O L) :
    w.Has e.objects Column.matched O ∧ w.Has e.links Column.matched L := by
  obtain ⟨f,hf,ho,hl⟩ := hn
  rw [he] at hf
  cases hf
  have hb := h.bounded he
  exact ⟨⟨hb _ List.mem_cons_self,ho⟩,⟨hb _ (List.mem_cons_of_mem _ List.mem_cons_self),hl⟩⟩

theorem Sound.exists_entry (h : w.Sound) {n : String} (hn : n ∈ w.registry.keys) :
    ∃ e O L, w.registry.find? n = some e ∧ w.Entry n O L := by
  obtain ⟨e,he⟩ := Option.isSome_iff_exists.mp (OrderedMap.find?_isSome_iff.mpr hn)
  obtain ⟨O,L,ho,hl⟩ := h.entry he
  exact ⟨e,O,L,he,⟨e,he,ho.holds,hl.holds⟩⟩

/-- A workspace inside the scratch scope of another one, out of which entries were taken. -/
structure Within (w : Workspace) (taken : List String) (w' : Workspace) : Prop where
  /-- The other entries are where they were. -/
  registry : ∀ n, w'.registry.find? n = if n ∈ taken then none else w.registry.find? n
  /-- So are their names. -/
  keys : w'.registry.keys = w.registry.keys.filter (· ∉ taken)
  /-- The store has only grown. -/
  store : w.store.Grows w'.store
  /-- Only new tables and those of the taken entries are to be released. -/
  scratch : ∀ i ∈ w'.scratch, w.store.created < i.index ∨
    ∃ n ∈ taken, ∃ e, w.registry.find? n = some e ∧ i ∈ e.ids

theorem Within.start (w : Workspace) : Within w [] { w with scratch := [] } :=
  ⟨fun _ => rfl,(List.filter_eq_self.mpr fun _ _ => rfl).symm,.refl _,
    fun _ hi => absurd hi List.not_mem_nil⟩

theorem Within.scratches (h : Within w taken w') (h' : w'.Scratches w'') :
    Within w taken w'' where
  registry n := by rw [h'.registry,h.registry]
  keys := by rw [h'.registry,h.keys]
  store := h.store.trans h'.store
  scratch i hi := by
    rcases h'.scratch i hi with hi|hi
    · exact h.scratch i hi
    · exact .inl (Nat.lt_of_le_of_lt h.store.created hi)

theorem Within.has (h : Within w taken w') (hh : w.Has id cols rows) : w'.Has id cols rows :=
  hh.grows h.store

/-- An entry that is there is taken, and its tables are noted as scratch tables. -/
theorem Within.take (h : Within w taken w') (hs : w.Sound) (name : String) :
    Outcome (do let tables ← take name; trackPair tables) w'
      (fun tables w'' => name ∈ w.registry.keys ∧ name ∉ taken ∧ Within w (taken ++ [name]) w'' ∧
        w''.store = w'.store ∧ ∃ O L, w.Entry name O L ∧
          w''.Has tables.objects Column.matched O ∧ w''.Has tables.links Column.matched L)
      (name ∉ w.registry.keys ∨ name ∈ taken) := by
  have hreg := h.registry name
  by_cases hn : name ∈ w.registry.keys ∧ name ∉ taken
  · obtain ⟨hk,ht⟩ := hn
    obtain ⟨e,O,L,he,hentry⟩ := hs.exists_entry hk
    obtain ⟨ho,hl⟩ := hs.has he hentry
    rw [if_neg ht,he] at hreg
    refine .of_ok (a:=e) (t:=⟨w'.store,w'.registry.erase name,w'.scratch ++ [e.objects] ++ [e.links]⟩)
      ?_ ⟨hk,ht,?_,rfl,O,L,hentry,?_,?_⟩
    · simp only [Workspace.take,require,bind_apply,get_apply,hreg,pure_apply,modify_apply,trackPair,
        track]
    · refine ⟨fun n => ?_,?_,h.store,fun i hi => ?_⟩
      · rw [OrderedMap.find?_erase,h.registry n]
        by_cases h1 : n = name <;> by_cases h2 : n ∈ taken <;> simp [h1,h2,ht]
      · rw [OrderedMap.keys_erase,h.keys,List.filter_filter]
        refine List.filter_congr fun n _ => ?_
        simp [and_comm,not_or]
      · have hnew : i ∈ e.ids → ∃ n ∈ taken ++ [name], ∃ f, w.registry.find? n = some f ∧ i ∈ f.ids :=
          fun hi => ⟨name,List.mem_append_right _ List.mem_cons_self,e,he,hi⟩
        rw [List.append_assoc] at hi
        rcases List.mem_append.mp hi with hi|hi
        · rcases h.scratch i hi with hi|⟨n,hn,f,hf,hi⟩
          · exact .inl hi
          · exact .inr ⟨n,List.mem_append_left _ hn,f,hf,hi⟩
        · exact .inr (hnew hi)
    · exact ⟨Nat.le_trans ho.bounded h.store.created,(h.has ho).holds⟩
    · exact ⟨Nat.le_trans hl.bounded h.store.created,(h.has hl).holds⟩
  · have hnone : w'.registry.find? name = none := by
      rw [hreg]
      split
      · rfl
      · rename_i ht
        have hk : name ∉ w.registry.keys := fun hk => hn ⟨hk,ht⟩
        rw [← OrderedMap.find?_isSome_iff] at hk
        simpa using hk
    refine .of_error (e:=.state (.noTables name)) (t:=w') ?_ ?_
    · simp only [Workspace.take,require,bind_apply,get_apply,hnone,refuseState_apply]
    · by_cases hk : name ∈ w.registry.keys
      · exact .inr (by_contra fun ht => hn ⟨hk,ht⟩)
      · exact .inl hk

/-! ## Writing an entry -/

/-- One entry was written, some were taken before, and all others hold what they held. -/
structure Wrote (w : Workspace) (taken : List String) (name : String) (O L : Rows)
    (w' : Workspace) : Prop where
  /-- The registry is sound. -/
  sound : w'.Sound
  /-- These are its names. -/
  keys : w'.registry.keys = insertOrdered name (w.registry.keys.filter (· ∉ taken))
  /-- The entry holds these rows. -/
  entry : w'.Entry name O L
  /-- The other entries hold what they held. -/
  others : ∀ {n O L}, n ≠ name → (w'.Entry n O L ↔ n ∉ taken ∧ w.Entry n O L)
  /-- The data are the same. -/
  data : w.store.SameData w'.store
  /-- The same tables are to be released. -/
  scratch : w'.scratch = w.scratch

/-- An entry that was written is written again. -/
theorem Wrote.again {name : String} {O' L' : Rows} (h : Wrote w taken name O L w')
    (h' : Wrote w' [] name O' L' w'') : Wrote w taken name O' L' w'' where
  sound := h'.sound
  keys := by
    have hall : w'.registry.keys.filter (· ∉ []) = w'.registry.keys :=
      List.filter_eq_self.mpr fun n _ => decide_eq_true List.not_mem_nil
    rw [h'.keys,hall,h.keys,insertOrdered_idem]
  entry := h'.entry
  others hn := (h'.others hn).trans ((and_iff_right List.not_mem_nil).trans (h.others hn))
  data := h.data.trans h'.data
  scratch := h'.scratch.trans h.scratch

/-- An entry beside a new one is an old one that is not taken. -/
theorem find?_old {m m' : OrderedMap String SubgraphTables} {name n : String}
    {t e : SubgraphTables}
    (hfind : m'.find? n = if n = name then some t else if n ∈ taken then none else m.find? n)
    (hn : n ≠ name) (he : m'.find? n = some e) : n ∉ taken ∧ m.find? n = some e := by
  rw [hfind,if_neg hn] at he
  split at he
  · cases he
  · exact ⟨‹_›,he⟩

/-- A registry stays sound when new tables are entered and those of the entries that stay are
kept. -/
theorem Sound.enter (hs : w.Sound) {name : String} {o l : TableId}
    (hfind : ∀ n, w'.registry.find? n =
      if n = name then some ⟨o,l⟩ else if n ∈ taken then none else w.registry.find? n)
    (hkept : ∀ {n e}, n ≠ name → n ∉ taken → w.registry.find? n = some e → ∀ i ∈ e.ids,
      w'.store.tables.find? i = w.store.tables.find? i)
    (hle : w.store.created ≤ w'.store.created)
    (ho : w'.Has o Column.matched O) (hl : w'.Has l Column.matched L)
    (hfo : w.store.created < o.index) (hfl : w.store.created < l.index) (hne : o ≠ l) :
    w'.Sound := by
  have hself : w'.registry.find? name = some ⟨o,l⟩ := by rw [hfind,if_pos rfl]
  have hold : ∀ {n e}, n ≠ name → w'.registry.find? n = some e →
      n ∉ taken ∧ w.registry.find? n = some e := fun hn he => find?_old (hfind _) hn he
  -- The tables of an old entry are older than the new ones.
  have hother : ∀ {n e}, n ≠ name → w'.registry.find? n = some e → ∀ i ∈ e.ids,
      i ∉ (SubgraphTables.mk o l).ids := by
    intro n e hn he i hi hnew
    have hb := hs.bounded (hold hn he).2 i hi
    rcases List.mem_cons.mp hnew with rfl|hi
    · exact Nat.not_lt_of_le hb hfo
    · rw [List.mem_singleton.mp hi] at hb
      exact Nat.not_lt_of_le hb hfl
  refine ⟨fun {n e} he => ?_,fun {n e} he => ?_,fun {m n e f} he hf hmn i hi hi' => ?_⟩
  · by_cases hn : n = name
    · rw [hn,hself] at he
      cases he
      exact ⟨O,L,ho,hl⟩
    · obtain ⟨ht,he⟩ := hold hn he
      obtain ⟨O',L',ho',hl'⟩ := hs.entry he
      exact ⟨O',L',
        ⟨Nat.le_trans ho'.bounded hle,(hkept hn ht he _ e.objects_mem).trans ho'.holds⟩,
        ⟨Nat.le_trans hl'.bounded hle,(hkept hn ht he _ e.links_mem).trans hl'.holds⟩⟩
  · by_cases hn : n = name
    · rw [hn,hself] at he
      cases he
      exact hne
    · exact hs.pair (hold hn he).2
  · by_cases hm : m = name
    · rw [hm,hself] at he
      cases he
      exact hother (fun hn => hmn (hm.trans hn.symm)) hf i hi' hi
    · by_cases hn : n = name
      · rw [hn,hself] at hf
        cases hf
        exact hother hm he i hi hi'
      · exact hs.apart (hold hm he).2 (hold hn hf).2 hmn i hi hi'

/-- Two new tables are put into the registry, and what is released besides is neither of them nor
a table of another entry that stays. -/
theorem Within.write (h : Within w taken w') (hs : w.Sound) {name : String} {o l : TableId}
    (ho : w'.Has o Column.matched O) (hl : w'.Has l Column.matched L)
    (hfo : w.store.created < o.index) (hfl : w.store.created < l.index) (hne : o ≠ l)
    {d : List TableId} (hreg : w''.registry = w'.registry.insert name ⟨o,l⟩)
    (hscratch : w''.scratch = w.scratch) (hdata : w'.store.SameData w''.store)
    (hcreated : w''.store.created = w'.store.created)
    (htables : ∀ {i}, i ∉ d → w''.store.tables.find? i = w'.store.tables.find? i)
    (hdropped : ∀ i ∈ d, i ≠ o ∧ i ≠ l ∧ (w.store.created < i.index ∨
      ∃ m ∈ name :: taken, ∃ f, w.registry.find? m = some f ∧ i ∈ f.ids)) :
    Wrote w taken name O L w'' := by
  have hfind : ∀ n, w''.registry.find? n =
      if n = name then some ⟨o,l⟩ else if n ∈ taken then none else w.registry.find? n := by
    intro n
    rw [hreg,OrderedMap.find?_insert,h.registry n]
  have hold : ∀ {n e}, n ≠ name → w''.registry.find? n = some e →
      n ∉ taken ∧ w.registry.find? n = some e := fun hn he => find?_old (hfind _) hn he
  -- The tables of an entry that stays are not released.
  have hkept : ∀ {n e}, n ≠ name → n ∉ taken → w.registry.find? n = some e → ∀ i ∈ e.ids,
      i ∉ d := by
    intro n e hn ht he i hi hd
    rcases (hdropped i hd).2.2 with hi'|⟨m,hm,f,hf,hi'⟩
    · exact Nat.not_lt_of_le (hs.bounded he i hi) hi'
    · refine hs.apart he hf (fun hnm => ?_) i hi hi'
      rcases List.mem_cons.mp hm with rfl|hm
      · exact hn hnm
      · exact ht (hnm ▸ hm)
  have hlift : ∀ {n e}, n ≠ name → n ∉ taken → w.registry.find? n = some e → ∀ i ∈ e.ids,
      w''.store.tables.find? i = w.store.tables.find? i := by
    intro n e hn ht he i hi
    rw [htables (hkept hn ht he i hi),h.store.tables (hs.bounded he i hi)]
  have hnew : ∀ {i cols rows}, (i = o ∨ i = l) → w'.Has i cols rows → w''.Has i cols rows := by
    intro i cols rows hi hh
    refine ⟨by rw [hcreated]; exact hh.bounded,(htables fun hd => ?_).trans hh.holds⟩
    obtain ⟨h1,h2,-⟩ := hdropped i hd
    exact hi.elim h1 h2
  have hself : w''.registry.find? name = some ⟨o,l⟩ := by rw [hfind,if_pos rfl]
  have hle : w.store.created ≤ w''.store.created := by
    rw [hcreated]
    exact h.store.created
  have ho'' := hnew (.inl rfl) ho
  have hl'' := hnew (.inr rfl) hl
  refine ⟨hs.enter hfind hlift hle ho'' hl'' hfo hfl hne,?_,⟨⟨o,l⟩,hself,ho''.holds,hl''.holds⟩,?_,
    h.store.data.trans hdata,hscratch⟩
  · rw [hreg,OrderedMap.keys_insert,h.keys]
  · intro n O' L' hn
    by_cases ht : n ∈ taken
    · refine ⟨fun he => ?_,fun he => absurd ht he.1⟩
      obtain ⟨e,he,-⟩ := he
      exact absurd ht (hold hn he).1
    · rw [and_iff_right ht]
      refine entry_congr ?_ (hlift hn ht)
      rw [hfind,if_neg hn,if_neg ht]

theorem attempt_release (h : w.store.Holds id cols rows) : attempt (Store.release id) w =
    .ok none { w with store := { w.store with tables := w.store.tables.erase id } } := by
  rw [attempt,EStateM.run,Store.release,bind_of_ok (Store.table_of_holds h)]
  rfl

theorem releasePair_ok {e : SubgraphTables} {cols' : List String}
    (ho : w.store.Holds e.objects cols O) (hl : w.store.Holds e.links cols' L)
    (hne : e.objects ≠ e.links) :
    releasePair e w = .ok () { w with store := w.store.discard e.ids } := by
  have hl' : Store.Holds { w.store with tables := w.store.tables.erase e.objects } e.links cols'
      L := by
    rw [Store.Holds,OrderedMap.find?_erase,if_neg (Ne.symm hne)]
    exact hl
  rw [releasePair,bind_of_ok (attempt_release ho),bind_of_ok (attempt_release hl')]
  rfl

/-- The data stay when a table is released. -/
theorem sameData_release (id : TableId) (s : Store) :
    Ends (Store.release id) s (fun _ s' => s.SameData s') fun _ s' => s.SameData s' := by
  rw [Store.release]
  refine Ends.bind (P:=fun _ s' => s' = s) ?_ ?_
  · rw [Store.table]
    refine .after (t:=s) rfl ?_
    cases s.tables.find? id with
    | none => exact .of_error rfl (.refl s)
    | some t => exact .of_ok rfl rfl
  · rintro _ _ rfl
    exact .of_ok rfl ⟨rfl,rfl,rfl,rfl⟩

theorem sameData_attempt {x : StoreStep Unit}
    (h : Ends x w.store (fun _ s => w.store.SameData s) fun _ s => w.store.SameData s) :
    ∃ o w', attempt x w = .ok o w' ∧ w.store.SameData w'.store := by
  rw [Ends] at h
  rw [attempt,EStateM.run]
  cases hx : x w.store with
  | ok a s =>
    rw [hx] at h
    exact ⟨_,_,rfl,h⟩
  | error e s =>
    rw [hx] at h
    exact ⟨_,_,rfl,h⟩

theorem sameData_releasePair (t : SubgraphTables) (w : Workspace) :
    Ends (releasePair t) w (fun _ w' => w.store.SameData w'.store)
      fun _ w' => w.store.SameData w'.store := by
  obtain ⟨_,w₁,h₁,hs₁⟩ := sameData_attempt (sameData_release t.objects w.store)
  obtain ⟨_,w₂,h₂,hs₂⟩ := sameData_attempt (sameData_release t.links w₁.store)
  rw [releasePair]
  refine .after h₁ (.after h₂ ?_)
  split
  · exact .of_error rfl (hs₁.trans hs₂)
  · exact .of_ok rfl (hs₁.trans hs₂)

theorem sameData_releaseAll (ts : List SubgraphTables) (w : Workspace) :
    w.store.SameData (releaseAll ts w).2.store := by
  induction ts generalizing w with
  | nil => exact .refl _
  | cons t ts ih =>
    have h := sameData_releasePair t w
    rw [Ends] at h
    rw [releaseAll,EStateM.run]
    cases hx : releasePair t w with
    | ok a w' =>
      rw [hx] at h
      exact h.trans (ih w')
    | error e w' =>
      rw [hx] at h
      exact h.trans (ih w')

/-- The data stay when the registry is dropped. -/
theorem sameData_dropRegistry (w : Workspace) : w.store.SameData w.dropRegistry.store :=
  sameData_releaseAll _ { w with registry := .empty }

/-- Work with scratch tables of its own ends with their release. -/
theorem ends_withScratch {α : Type} {work : WorkStep α} {P : α → Workspace → Prop}
    {E : Error → Workspace → Prop}
    (h : Ends work { w with scratch := [] }
      (fun a w' => P a { w'.releaseScratch with scratch := w.scratch })
      fun e w' => E e { w'.releaseScratch with scratch := w.scratch }) :
    Ends (withScratch work) w P E := by
  rw [Ends] at h
  split at h
  · rename_i a w' hx
    refine .of_ok ?_ h
    rw [withScratch,EStateM.run,hx]
  · rename_i e w' hx
    refine .of_error (e:=e) (t:={ w'.releaseScratch with scratch := w.scratch }) ?_ h
    rw [withScratch,EStateM.run,hx]

theorem outcome_withScratch {α : Type} {work : WorkStep α} {P : α → Workspace → Prop} {F : Prop}
    (h : Outcome work { w with scratch := [] }
      (fun a w' => P a { w'.releaseScratch with scratch := w.scratch }) F) :
    Outcome (withScratch work) w P F :=
  Ends.outcome (ends_withScratch h)

theorem mem_kept {o l i : TableId} {ids : List TableId} :
    i ∈ (ids.filter (· ≠ o)).filter (· ≠ l) ↔ i ∈ ids ∧ i ≠ o ∧ i ≠ l := by
  simp only [List.mem_filter,ne_eq,decide_not,Bool.not_eq_true',decide_eq_false_iff_not,and_assoc]

section Closing

variable {name : String} {o l : TableId}

theorem Within.dropped (h : Within w taken w') : ∀ i ∈ (w'.scratch.filter (· ≠ o)).filter (· ≠ l),
    i ≠ o ∧ i ≠ l ∧ (w.store.created < i.index ∨
      ∃ m ∈ name :: taken, ∃ f, w.registry.find? m = some f ∧ i ∈ f.ids) := by
  intro i hi
  obtain ⟨hi,h1,h2⟩ := mem_kept.mp hi
  refine ⟨h1,h2,(h.scratch i hi).imp id ?_⟩
  rintro ⟨n,hn,f,hf,hi⟩
  exact ⟨n,List.mem_cons_of_mem _ hn,f,hf,hi⟩

theorem Made.ne (hm : w.Made o cols O w') (hm' : w'.Made l cols L w'') : o ≠ l := fun he => by
  have hlt := hm'.fresh
  rw [← he] at hlt
  exact Nat.not_lt_of_le hm.has.bounded hlt

theorem Within.fresh (h : Within w taken w') (hm : w'.Made id cols rows w'') :
    w.store.created < id.index := Nat.lt_of_le_of_lt h.store.created hm.fresh

/-- Two of the scratch tables are kept and put into the registry under a name that is free. -/
theorem Within.outcome_put (h : Within w taken w') (hs : w.Sound)
    (ho : w'.Has o Column.matched O) (hl : w'.Has l Column.matched L)
    (hfo : w.store.created < o.index) (hfl : w.store.created < l.index) (hne : o ≠ l) :
    Outcome (do
        let o ← keep o
        let l ← keep l
        put name o (some l)) w'
      (fun _ w'' => name ∉ w.registry.keys.filter (· ∉ taken) ∧
        Wrote w taken name O L { w''.releaseScratch with scratch := w.scratch })
      (name ∈ w.registry.keys.filter (· ∉ taken)) := by
  have hkeys := h.keys
  by_cases hn : name ∈ w.registry.keys.filter (· ∉ taken)
  · have hc : w'.registry.contains name = true := OrderedMap.contains_iff.mpr (hkeys ▸ hn)
    refine .of_error (e:=.state (.tablesExist name)) (t:=⟨w'.store,w'.registry,
      (w'.scratch.filter (· ≠ o)).filter (· ≠ l)⟩) ?_ hn
    simp only [keep,put,bind_apply,modify_apply,pure_apply,get_apply,hc,if_true,refuseState_apply]
  · have hc : w'.registry.contains name = false := by
      rw [← Bool.not_eq_true,OrderedMap.contains_iff,hkeys]
      exact hn
    refine .of_ok (a:=⟨⟩) (t:=⟨w'.store,w'.registry.insert name ⟨o,l⟩,
      (w'.scratch.filter (· ≠ o)).filter (· ≠ l)⟩) ?_ ⟨hn,?_⟩
    · simp only [keep,put,bind_apply,modify_apply,pure_apply,get_apply,hc,Bool.false_eq_true,
        if_false]
    · refine h.write hs ho hl hfo hfl hne rfl rfl ?_ ?_ (fun {i} hi => ?_) (h.dropped (o:=o) (l:=l))
      · exact ⟨rfl,rfl,rfl,rfl⟩
      · rfl
      · exact (Store.find?_discard _ _ i).trans (if_neg hi)

/-- Two new tables take the place of an entry, if there is one. The entry holds their rows even after
the release of other tables that belong to no entry that stays. -/
theorem Within.outcome_place (h : Within w taken w') (hs : w.Sound)
    (ho : w'.Has o Column.matched O) (hl : w'.Has l Column.matched L)
    (hfo : w.store.created < o.index) (hfl : w.store.created < l.index) (hne : o ≠ l) :
    Outcome (replace name ⟨o,l⟩) w' (fun _ w'' => w''.scratch = w'.scratch ∧
      ∀ d : List TableId, (∀ i ∈ d, i ≠ o ∧ i ≠ l ∧ (w.store.created < i.index ∨
        ∃ m ∈ name :: taken, ∃ f, w.registry.find? m = some f ∧ i ∈ f.ids)) →
        Wrote w taken name O L ⟨w''.store.discard d,w''.registry,w.scratch⟩) False := by
  have hreg := h.registry name
  cases hp : w'.registry.find? name with
  | none =>
    refine .of_ok (a:=⟨⟩) (t:=⟨w'.store,w'.registry.insert name ⟨o,l⟩,w'.scratch⟩) ?_
      ⟨rfl,fun d hd => ?_⟩
    · simp only [replace,bind_apply,modify_apply,pure_apply,get_apply,hp]
    · refine h.write hs ho hl hfo hfl hne rfl rfl ?_ ?_ (fun {i} hi => ?_) hd
      · exact ⟨rfl,rfl,rfl,rfl⟩
      · rfl
      · exact (Store.find?_discard _ _ i).trans (if_neg hi)
  | some old =>
    have hold : w.registry.find? name = some old := by
      rw [hp] at hreg
      split at hreg
      · cases hreg
      · exact hreg.symm
    obtain ⟨O',L',ho',hl'⟩ := hs.entry hold
    have hdiff : old ≠ ⟨o,l⟩ := fun he => by
      have hb := ho'.bounded
      rw [he] at hb
      exact Nat.not_lt_of_le hb hfo
    have hrelease := releasePair_ok (w:=⟨w'.store,w'.registry.insert name ⟨o,l⟩,w'.scratch⟩)
      (h.has ho').holds (h.has hl').holds (hs.pair hold)
    refine .of_ok (a:=⟨⟩) (t:=⟨w'.store.discard old.ids,w'.registry.insert name ⟨o,l⟩,w'.scratch⟩)
      ?_ ⟨rfl,fun d hd => ?_⟩
    · simp only [replace,bind_apply,modify_apply,get_apply,hp]
      rw [if_pos hdiff]
      exact hrelease
    · refine h.write hs ho hl hfo hfl hne (d:=old.ids ++ d) rfl rfl ?_ ?_ (fun {i} hi => ?_)
        fun i hi => ?_
      · exact ⟨rfl,rfl,rfl,rfl⟩
      · rfl
      · rw [List.mem_append,not_or] at hi
        refine (Store.find?_discard _ _ i).trans ((if_neg hi.2).trans ?_)
        exact (Store.find?_discard _ _ i).trans (if_neg hi.1)
      · rcases List.mem_append.mp hi with hi|hi
        · have hb := hs.bounded hold i hi
          refine ⟨fun he => ?_,fun he => ?_,.inr ⟨name,List.mem_cons_self,old,hold,hi⟩⟩
          · rw [he] at hb
            omega
          · rw [he] at hb
            omega
        · exact hd i hi

/-- Two of the scratch tables are kept and take the place of an entry, if there is one. -/
theorem Within.outcome_replace (h : Within w taken w') (hs : w.Sound)
    (ho : w'.Has o Column.matched O) (hl : w'.Has l Column.matched L)
    (hfo : w.store.created < o.index) (hfl : w.store.created < l.index) (hne : o ≠ l) :
    Outcome (do
        let o ← keep o
        let l ← keep l
        replace name ⟨o,l⟩) w'
      (fun _ w'' => Wrote w taken name O L { w''.releaseScratch with scratch := w.scratch })
      False := by
  have hkept : Within w taken ⟨w'.store,w'.registry,(w'.scratch.filter (· ≠ o)).filter (· ≠ l)⟩ :=
    ⟨h.registry,h.keys,h.store,fun i hi => h.scratch i (mem_kept.mp hi).1⟩
  refine .after (a:=o) (t:=⟨w'.store,w'.registry,w'.scratch.filter (· ≠ o)⟩) rfl ?_
  refine .after (a:=l) (t:=⟨w'.store,w'.registry,(w'.scratch.filter (· ≠ o)).filter (· ≠ l)⟩) rfl ?_
  refine (hkept.outcome_place hs ⟨ho.bounded,ho.holds⟩ ⟨hl.bounded,hl.holds⟩ hfo hfl hne).imp
    (fun _ w'' hw => ?_) id
  obtain ⟨hscratch,hw⟩ := hw
  rw [releaseScratch,hscratch]
  exact hw _ (h.dropped (o:=o) (l:=l))

end Closing

end Workspace

end GraphPattern
