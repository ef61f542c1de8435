import GraphPattern.Proofs.Custody.Workspace

/-!
# Histories of a registry

A registry is used through calls that hand tables in, exchange them, take them out and release them,
while others use the same store. Every call takes away the tables that it is to release and no
others. So a table that leaves the registry without being taken out is released once, and the
registry holds no released table, as long as no entry is exchanged for one that shares a table with
it: then the shared table is released although the entry keeps it.
-/

namespace GraphPattern

open Step

/-- A call of a registry with its arguments, or a call that somebody makes of its store. -/
inductive RegistryCall where
  /-- Add an entry. -/
  | put (name : String) (objects : TableId) (links : Option TableId)
  /-- Put tables in the place of an entry. -/
  | replace (name : String) (tables : SubgraphTables)
  /-- Remove an entry and keep its tables. -/
  | take (name : String)
  /-- Remove an entry and release its tables. -/
  | release (name : String)
  /-- Empty the registry and release all its tables. -/
  | clear
  /-- Give the registry up. -/
  | drop
  /-- Somebody uses the store. -/
  | other (call : Store.Call)

namespace RegistryCall

/-- The step of a call, whose answer does not matter here. -/
def run : RegistryCall → WorkStep Unit
  | put name objects links => Workspace.put name objects links
  | replace name tables => Workspace.replace name tables
  | take name => do let _ ← Workspace.take name
  | release name => Workspace.releaseEntry name
  | clear => Workspace.clear
  | drop => modify Workspace.dropRegistry
  | other call => liftM call.run

/-- The workspace after a call, whether the call succeeds or fails. -/
def after (c : RegistryCall) (w : Workspace) : Workspace := Step.after c.run w

/-- The name of the entry that a call writes. -/
def entry? : RegistryCall → Option String
  | put name _ _ | replace name _ => some name
  | _ => none

/-- The tables that a call is to release. -/
def released (w : Workspace) : RegistryCall → List TableId
  | replace name tables =>
    (w.registry.find? name).elim [] fun old => if old = tables then [] else old.ids
  | release name => (w.registry.find? name).elim [] SubgraphTables.ids
  | clear | drop => w.registry.values.flatMap SubgraphTables.ids
  | other call => call.released
  | _ => []

end RegistryCall

/-- A table is there, and no entry holds it but perhaps the named one. -/
def Workspace.Spare (w : Workspace) (name : String) (i : TableId) : Prop :=
  w.store.Live i ∧ ∀ n t, w.registry.find? n = some t → i ∈ t.ids → n = name

namespace RegistryCall

/-- The tables that are handed in are there, and no entry of another name holds one of them. Nobody
else releases a table that the registry holds. -/
def Lawful (w : Workspace) : RegistryCall → Prop
  | put name objects links => ∀ i ∈ objects :: links.toList, w.Spare name i
  | replace name tables => ∀ i ∈ tables.ids, w.Spare name i
  | other call => ∀ i ∈ call.released, ¬w.Owns i
  | _ => True

/-- An entry is exchanged for another one that shares a table with it. -/
def Straddles (w : Workspace) : RegistryCall → Prop
  | replace name tables => ∃ old, w.registry.find? name = some old ∧ old ≠ tables ∧
      ∃ i ∈ tables.ids, i ∈ old.ids
  | _ => False

end RegistryCall

/-- Nothing is erased under a key that is not there. -/
theorem OrderedMap.erase_of_none {κ : Type u} {α : Type v} [DecidableEq κ] {m : OrderedMap κ α}
    {k : κ} (h : m.find? k = none) : m.erase k = m := by
  refine erase_of_not_mem fun hk => ?_
  have hsome := find?_isSome_iff.mpr hk
  rw [h] at hsome
  cases hsome

theorem Store.discard_append (s : Store) (ids ids' : List TableId) :
    s.discard (ids ++ ids') = (s.discard ids).discard ids' := by
  rw [discard,List.foldl_append]
  rfl

namespace Workspace

variable {w : Workspace} {name : String} {t : SubgraphTables} {o i id : TableId}

/-! ## The state after a call -/

/-- A table that is not there is released in vain. -/
theorem attempt_release_eq (id : TableId) (w : Workspace) : ∃ e,
    attempt (Store.release id) w = .ok e { w with store := w.store.discard [id] } := by
  cases hi : w.store.tables.find? id with
  | none =>
    have htable : Store.table id w.store = .error (.unknownTable id) w.store := by
      simp only [Store.table,bind_apply,get_apply,hi,throw_apply]
    have hsame : w.store.discard [id] = w.store := by
      rw [Store.discard,List.foldl_cons,OrderedMap.erase_of_none hi]
      rfl
    refine ⟨some (.unknownTable id),?_⟩
    rw [attempt,EStateM.run,Store.release,bind_of_error htable,hsame]
  | some t =>
    have hholds : w.store.Holds id t.columns t.rows := hi
    exact ⟨none,attempt_release hholds⟩

theorem after_releasePair (t : SubgraphTables) (w : Workspace) :
    Step.after (releasePair t) w = { w with store := w.store.discard t.ids } := by
  obtain ⟨e,he⟩ := attempt_release_eq t.objects w
  obtain ⟨f,hf⟩ := attempt_release_eq t.links { w with store := w.store.discard [t.objects] }
  rw [Step.after,releasePair,bind_of_ok he,bind_of_ok hf]
  cases e <|> f
  all_goals rfl

theorem releaseAll_eq (ts : List SubgraphTables) (w : Workspace) :
    (releaseAll ts w).2 = { w with store := w.store.discard (ts.flatMap SubgraphTables.ids) } := by
  induction ts generalizing w with
  | nil => rfl
  | cons t ts ih =>
    have hpair := after_releasePair t w
    rw [List.flatMap_cons,Store.discard_append,releaseAll,EStateM.run]
    rw [Step.after] at hpair
    cases hx : releasePair t w with
    | ok a w' =>
      rw [hx] at hpair
      cases hpair
      exact ih _
    | error e w' =>
      rw [hx] at hpair
      cases hpair
      exact ih _

end Workspace

namespace RegistryCall

open Workspace

variable {w : Workspace} {name : String} {t : SubgraphTables} {o l i : TableId}
  {links : Option TableId}

/-- An entry that exists is not put again. -/
theorem after_put_of_mem (h : w.registry.contains name = true) :
    (put name o links).after w = w := by
  have hrefused : Workspace.put name o links w = .error (.state (.tablesExist name)) w := by
    simp only [Workspace.put,bind_apply,get_apply,h,if_true,refuseState_apply]
  rw [after,run,Step.after,hrefused]

/-- A new entry holds the tables that were handed in, or a new table of links. -/
theorem after_put (o : TableId) (links : Option TableId) (hw : w.store.Counted)
    (h : w.registry.contains name = false) : ∃ l s,
    (put name o links).after w = { w with store := s, registry := w.registry.insert name ⟨o,l⟩ } ∧
      (links = some l ∧ s = w.store ∨ links = none ∧ w.store.Added l s) := by
  cases links with
  | some l =>
    refine ⟨l,w.store,?_,.inl ⟨rfl,rfl⟩⟩
    have hput : Workspace.put name o (some l) w =
        .ok () { w with registry := w.registry.insert name ⟨o,l⟩ } := by
      simp [Workspace.put,bind_apply,get_apply,h,modify_apply]
    rw [after,run,after_of_ok hput]
  | none =>
    have hadds := Store.adds_createTable Column.matched w.store hw
    obtain ⟨l,s,hs⟩ : ∃ l s, Store.createTable Column.matched w.store = .ok l s := ⟨_,_,rfl⟩
    refine ⟨l,s,?_,.inr ⟨rfl,hadds.of_eq hs⟩⟩
    have hput : Workspace.put name o none w =
        .ok () { w with store := s, registry := w.registry.insert name ⟨o,l⟩ } := by
      simp [Workspace.put,bind_apply,get_apply,h,modify_apply,lift_apply,hs]
    rw [after,run,after_of_ok hput]

theorem after_replace : (replace name t).after w =
    { w with store := w.store.discard (released w (replace name t)),
             registry := w.registry.insert name t } := by
  rw [after,run,Step.after,Workspace.replace]
  simp only [bind_apply,get_apply,modify_apply,released]
  cases hold : w.registry.find? name with
  | none => rfl
  | some old =>
    by_cases hsame : old = t
    · rw [Option.elim_some,if_pos hsame]
      simp [hsame]
      rfl
    · have hpair := after_releasePair old { w with registry := w.registry.insert name t }
      rw [Option.elim_some,if_neg hsame]
      simp only [ne_eq,hsame,not_false_eq_true,if_true]
      exact hpair

theorem after_take : (take name).after w = { w with registry := w.registry.erase name } := by
  rw [after,run,Step.after]
  cases ht : w.registry.find? name with
  | none =>
    rw [bind_of_error (take_none ht),OrderedMap.erase_of_none ht]
  | some t => rw [bind_of_ok (take_eq ht),pure_apply]

theorem after_release : (release name).after w =
    { w with store := w.store.discard (released w (release name)),
             registry := w.registry.erase name } := by
  rw [after,run,Step.after,Workspace.releaseEntry,released]
  cases ht : w.registry.find? name with
  | none =>
    rw [bind_of_error (take_none ht),OrderedMap.erase_of_none ht]
    rfl
  | some t =>
    rw [bind_of_ok (take_eq ht)]
    exact after_releasePair t { w with registry := w.registry.erase name }

theorem after_drop : drop.after w =
    { w with store := w.store.discard (released w drop), registry := .empty } := by
  have hall := releaseAll_eq w.registry.values { w with registry := .empty }
  rw [after,run,Step.after,modify_apply]
  exact hall

theorem after_clear : clear.after w =
    { w with store := w.store.discard (released w clear), registry := .empty } := by
  have hall := releaseAll_eq w.registry.values { w with registry := .empty }
  rw [after,run,Step.after,Workspace.clear]
  simp only [bind_apply,get_apply,set_apply]
  refine Eq.trans ?_ hall
  cases (releaseAll w.registry.values { w with registry := .empty }).1
  all_goals rfl

theorem after_other (c : Store.Call) :
    (other c).after w = { w with store := c.after w.store } := by
  rw [after,run,Step.after,lift_apply,Store.Call.after,Step.after]
  cases c.run w.store
  all_goals rfl

end RegistryCall

/-! ## What one call preserves -/

/-- Tables have numbers that were given, and entries of different names share none. -/
structure Workspace.Apart (w : Workspace) : Prop where
  /-- The numbers of all tables that are there were given. -/
  counted : w.store.Counted
  /-- The numbers of all tables in the registry were given. -/
  bounded : ∀ {i}, w.Owns i → i.index ≤ w.store.created
  /-- Different entries share no table. -/
  apart : ∀ {m n t u}, w.registry.find? m = some t → w.registry.find? n = some u → m ≠ n →
    ∀ i ∈ t.ids, i ∉ u.ids

namespace RegistryCall

open Workspace

variable {w : Workspace} {c : RegistryCall} {n : String} {t : SubgraphTables} {i : TableId}

/-- A call takes away what it is to release and nothing else. -/
theorem develops (c : RegistryCall) (hw : w.store.Counted) :
    w.store.Develops (c.released w) (c.after w).store := by
  cases c with
  | put name objects links =>
    cases h : w.registry.contains name with
    | true =>
      rw [after_put_of_mem h]
      exact Store.develops_of_same rfl rfl hw
    | false =>
      obtain ⟨l,s,hafter,⟨-,rfl⟩|⟨-,hadded⟩⟩ := after_put objects links hw h
      · rw [hafter]
        exact Store.develops_of_same rfl rfl hw
      · rw [hafter]
        exact hadded.develops hw
  | replace name tables =>
    rw [after_replace]
    exact Store.develops_discard _ hw
  | take name =>
    rw [after_take]
    exact Store.develops_of_same rfl rfl hw
  | release name =>
    rw [after_release]
    exact Store.develops_discard _ hw
  | clear =>
    rw [after_clear]
    exact Store.develops_discard _ hw
  | drop =>
    rw [after_drop]
    exact Store.develops_discard _ hw
  | other call =>
    rw [after_other]
    exact Store.Call.develops_after call hw

/-- An entry was there before, or the call has written it: then its tables were handed in or are
new. -/
theorem entry_after (hw : w.store.Counted) (hc : c.Lawful w)
    (h : (c.after w).registry.find? n = some t) : w.registry.find? n = some t ∨ c.entry? = some n ∧
      ∀ i ∈ t.ids, w.Spare n i ∨ w.store.created < i.index ∧ (c.after w).store.Live i := by
  cases c with
  | put name objects links =>
    cases hmem : w.registry.contains name with
    | true =>
      rw [after_put_of_mem hmem] at h
      exact .inl h
    | false =>
      obtain ⟨l,s,hafter,hlinks⟩ := after_put objects links hw hmem
      rw [hafter,OrderedMap.find?_insert] at h
      by_cases hn : n = name
      · rw [if_pos hn] at h
        cases h
        refine .inr ⟨congrArg some hn.symm,fun i hi => ?_⟩
        rcases List.mem_pair.mp hi with rfl|rfl
        · exact .inl (hn ▸ hc _ List.mem_cons_self)
        · rcases hlinks with ⟨rfl,-⟩|⟨-,hadded⟩
          · exact .inl (hn ▸ hc _ (List.mem_cons_of_mem _ List.mem_cons_self))
          · rw [hafter]
            exact .inr ⟨hadded.fresh,(hadded.live _).mpr (.inr rfl)⟩
      · rw [if_neg hn] at h
        exact .inl h
  | replace name tables =>
    rw [after_replace,OrderedMap.find?_insert] at h
    by_cases hn : n = name
    · rw [if_pos hn] at h
      cases h
      exact .inr ⟨congrArg some hn.symm,fun i hi => .inl (hn ▸ hc i hi)⟩
    · rw [if_neg hn] at h
      exact .inl h
  | take name =>
    rw [after_take,OrderedMap.find?_erase] at h
    split at h
    · cases h
    · exact .inl h
  | release name =>
    rw [after_release,OrderedMap.find?_erase] at h
    split at h
    · cases h
    · exact .inl h
  | clear =>
    rw [after_clear] at h
    cases h
  | drop =>
    rw [after_drop] at h
    cases h
  | other call =>
    rw [after_other] at h
    exact .inl h

theorem apart_after (hw : w.Apart) (hc : c.Lawful w) : (c.after w).Apart := by
  have hd := c.develops hw.counted
  refine ⟨hd.counted,fun {i} hi => ?_,fun {m n t u} ht hu hne i hi hi' => ?_⟩
  · obtain ⟨n,t,ht,hi⟩ := hi
    rcases entry_after hw.counted hc ht with hold|⟨-,hnew⟩
    · exact Nat.le_trans (hw.bounded ⟨n,t,hold,hi⟩) hd.created
    · rcases hnew i hi with hspare|⟨-,hlive⟩
      · exact Nat.le_trans (hw.counted hspare.1) hd.created
      · exact hd.counted hlive
  · -- No table of an entry that was there is handed in for another one, and none is new.
    have hforeign : ∀ m n t, m ≠ n → w.registry.find? m = some t → i ∈ t.ids →
        ¬(w.Spare n i ∨ w.store.created < i.index ∧ (c.after w).store.Live i) := by
      intro m n t hne ht hi hnew
      rcases hnew with hspare|⟨hlt,-⟩
      · exact hne (hspare.2 m t ht hi)
      · exact Nat.not_lt_of_le (hw.bounded ⟨m,t,ht,hi⟩) hlt
    rcases entry_after hw.counted hc ht with ht|⟨hm,ht⟩
    · rcases entry_after hw.counted hc hu with hu|⟨-,hu⟩
      · exact hw.apart ht hu hne i hi hi'
      · exact hforeign m n t hne ht hi (hu i hi')
    · rcases entry_after hw.counted hc hu with hu|⟨hn,-⟩
      · exact hforeign n m u hne.symm hu hi' (ht i hi)
      · exact hne (Option.some_inj.mp (hm.symm.trans hn))

/-- No table that the registry holds after a call was to be released, unless the call has exchanged
an entry for one that shares a table with it. -/
theorem not_released (hw : w.Apart) (hc : c.Lawful w) (hs : ¬c.Straddles w)
    (h : (c.after w).Owns i) : i ∉ c.released w := by
  obtain ⟨n,t,ht,hi⟩ := h
  -- What another entry holds is not among the tables of the one that is given up.
  have helim : ∀ {name}, n ≠ name → w.registry.find? n = some t →
      ∀ old, w.registry.find? name = some old → i ∉ old.ids :=
    fun hne ht old hold => hw.apart ht hold hne i hi
  cases c with
  | put name objects links => exact List.not_mem_nil
  | take name => exact List.not_mem_nil
  | replace name tables =>
    rw [after_replace,OrderedMap.find?_insert] at ht
    rw [released]
    cases hold : w.registry.find? name with
    | none => exact List.not_mem_nil
    | some old =>
      rw [Option.elim_some]
      by_cases hsame : old = tables
      · rw [if_pos hsame]
        exact List.not_mem_nil
      · rw [if_neg hsame]
        by_cases hn : n = name
        · rw [if_pos hn] at ht
          cases ht
          exact fun hmem => hs ⟨old,hold,hsame,i,hi,hmem⟩
        · rw [if_neg hn] at ht
          exact helim hn ht old hold
  | release name =>
    rw [after_release,OrderedMap.find?_erase] at ht
    rw [released]
    split at ht
    · cases ht
    · rename_i hn
      cases hold : w.registry.find? name with
      | none => exact List.not_mem_nil
      | some old => exact helim hn ht old hold
  | clear =>
    rw [after_clear] at ht
    cases ht
  | drop =>
    rw [after_drop] at ht
    cases ht
  | other call =>
    rw [after_other] at ht
    exact fun hmem => hc i hmem ⟨n,t,ht,hi⟩

theorem live_after (hw : w.Apart) (hc : c.Lawful w) (hs : ¬c.Straddles w)
    (hl : ∀ i, w.Owns i → w.store.Live i) (h : (c.after w).Owns i) : (c.after w).store.Live i := by
  have hd := c.develops hw.counted
  have hkept := not_released hw hc hs h
  obtain ⟨n,t,ht,hi⟩ := h
  rcases entry_after hw.counted hc ht with hold|⟨-,hnew⟩
  · have howns : w.Owns i := ⟨n,t,hold,hi⟩
    exact (hd.live (hw.bounded howns)).mpr ⟨hl i howns,hkept⟩
  · rcases hnew i hi with hspare|⟨-,hlive⟩
    · exact (hd.live (hw.counted hspare.1)).mpr ⟨hspare.1,hkept⟩
    · exact hlive

/-- An entry that is exchanged for one that shares a table with it is left with a released table. -/
theorem dead_of_straddles (hw : w.Apart) (hs : c.Straddles w) :
    ∃ i, (c.after w).Owns i ∧ ¬(c.after w).store.Live i := by
  have hd := c.develops hw.counted
  cases c with
  | replace name tables =>
    obtain ⟨old,hold,hne,i,hi,hmem⟩ := hs
    refine ⟨i,⟨name,tables,?_,hi⟩,fun hlive => ?_⟩
    · rw [after_replace]
      exact OrderedMap.find?_insert_self _ _ _
    · refine ((hd.live (hw.bounded ⟨name,old,hold,hmem⟩)).mp hlive).2 ?_
      rw [released,hold,Option.elim_some,if_neg hne]
      exact hmem
  | _ => exact hs.elim

/-- A table leaves the registry because it is taken out or released. -/
theorem released_of_left (hw : w.store.Counted) (hc : ∀ name, c ≠ take name) (h : w.Owns i)
    (hleft : ¬(c.after w).Owns i) : i ∈ c.released w := by
  obtain ⟨n,t,ht,hi⟩ := h
  have hgone : (c.after w).registry.find? n ≠ some t := fun hstay => hleft ⟨n,t,hstay,hi⟩
  cases c with
  | put name objects links =>
    refine absurd ?_ hgone
    cases hmem : w.registry.contains name with
    | true =>
      rw [after_put_of_mem hmem]
      exact ht
    | false =>
      obtain ⟨l,s,hafter,-⟩ := after_put objects links hw hmem
      have hne : n ≠ name := by
        rintro rfl
        rw [OrderedMap.contains,ht] at hmem
        cases hmem
      rw [hafter,OrderedMap.find?_insert,if_neg hne]
      exact ht
  | take name => exact absurd rfl (hc name)
  | replace name tables =>
    rw [after_replace,OrderedMap.find?_insert] at hgone
    by_cases hn : n = name
    · subst hn
      rw [if_pos rfl] at hgone
      rw [released,ht,Option.elim_some,if_neg fun he => hgone (congrArg some he.symm)]
      exact hi
    · rw [if_neg hn] at hgone
      exact absurd ht hgone
  | release name =>
    rw [after_release,OrderedMap.find?_erase] at hgone
    by_cases hn : n = name
    · subst hn
      rw [released,ht]
      exact hi
    · rw [if_neg hn] at hgone
      exact absurd ht hgone
  | clear | drop =>
    have hvalue := List.mem_map_of_mem (f:=Prod.snd) (OrderedMap.mem_of_find? ht)
    exact List.mem_flatMap.mpr ⟨t,hvalue,hi⟩
  | other call =>
    rw [after_other] at hgone
    exact absurd ht hgone

end RegistryCall

/-! ## Histories -/

namespace Workspace

open RegistryCall

variable {w : Workspace} {s : Store} {cs : List RegistryCall} {c : RegistryCall} {i : TableId}
  {j k m n : Nat}

/-- The workspace after some calls, one after another. -/
def handled (w : Workspace) (cs : List RegistryCall) : Workspace :=
  cs.foldl (fun w c => c.after w) w

/-- Every call is lawful where it is made. -/
def Observes (w : Workspace) (cs : List RegistryCall) : Prop :=
  ∀ (n : Nat) (c : RegistryCall), cs[n]? = some c → c.Lawful (w.handled (cs.take n))

/-- The call at a place among others takes a table away that was there. -/
def ReleasedAt (w : Workspace) (cs : List RegistryCall) (n : Nat) (i : TableId) : Prop :=
  (w.handled (cs.take n)).store.Live i ∧ ¬(w.handled (cs.take (n+1))).store.Live i

theorem handled_take_succ (h : cs[n]? = some c) :
    w.handled (cs.take (n+1)) = c.after (w.handled (cs.take n)) := by
  rw [handled,handled,List.take_add_one,h,Option.toList_some,List.foldl_append]
  rfl

theorem handled_take_of_none (h : cs[n]? = none) :
    w.handled (cs.take (n+1)) = w.handled (cs.take n) := by
  rw [List.take_add_one,h,Option.toList_none,List.append_nil]

/-- What every call preserves holds from some call on if it holds before it. -/
theorem handled_of_le {P : Workspace → Prop} (hm : m ≤ n) (hp : P (w.handled (cs.take m)))
    (hstep : ∀ (n : Nat) (c : RegistryCall), cs[n]? = some c → P (w.handled (cs.take n)) →
      P (c.after (w.handled (cs.take n)))) : P (w.handled (cs.take n)) := by
  induction hm with
  | refl => exact hp
  | @step n _ ih =>
    cases hc : cs[n]? with
    | none =>
      rw [handled_take_of_none hc]
      exact ih
    | some c =>
      rw [handled_take_succ hc]
      exact hstep n c hc ih

theorem apart_fresh (hs : s.Counted) : (fresh s).Apart where
  counted := hs
  bounded := by
    rintro i ⟨_,_,⟨⟩,_⟩
  apart := nofun

theorem Apart.handled (hw : w.Apart) (h : w.Observes cs) (n : Nat) :
    (w.handled (cs.take n)).Apart :=
  handled_of_le (P:=Apart) (Nat.zero_le n) hw fun n c hc ih => apart_after ih (h n c hc)

/-- Numbers are not taken back. -/
theorem Apart.given (hw : w.Apart) (h : w.Observes cs) (hm : m ≤ n)
    (hi : i.index ≤ (w.handled (cs.take m)).store.created) :
    i.index ≤ (w.handled (cs.take n)).store.created :=
  handled_of_le (P:=fun v => i.index ≤ v.store.created) hm hi fun n c _ hi =>
    Nat.le_trans hi (c.develops (hw.handled h n).counted).created

/-- A table that is not there any more does not come back. -/
theorem Apart.dead (hw : w.Apart) (h : w.Observes cs) (hm : m ≤ n)
    (hi : i.index ≤ (w.handled (cs.take m)).store.created)
    (hdead : ¬(w.handled (cs.take m)).store.Live i) : ¬(w.handled (cs.take n)).store.Live i := by
  have hboth := handled_of_le (P:=fun v => i.index ≤ v.store.created ∧ ¬v.store.Live i) hm
    ⟨hi,hdead⟩ fun n c _ ⟨hi,hdead⟩ => by
      have hd := c.develops (hw.handled h n).counted
      exact ⟨Nat.le_trans hi hd.created,fun hlive => hdead ((hd.live hi).mp hlive).1⟩
  exact hboth.2

/-- No table is released twice. -/
theorem ReleasedAt.unique (hw : w.Apart) (h : w.Observes cs) (hm : w.ReleasedAt cs m i)
    (hk : w.ReleasedAt cs k i) : k = m := by
  have hlate : ∀ {m k}, w.ReleasedAt cs m i → w.ReleasedAt cs k i → ¬m < k := by
    intro m k hm hk hlt
    have hi := hw.given h (Nat.le_succ m) ((hw.handled h m).counted hm.1)
    exact hw.dead h hlt hi hm.2 hk.1
  exact Nat.le_antisymm (Nat.not_lt.mp (hlate hm hk)) (Nat.not_lt.mp (hlate hk hm))

/-- What was there and is there no more was released in between. -/
theorem exists_releasedAt (hj : j ≤ n) (hlive : (w.handled (cs.take j)).store.Live i)
    (hdead : ¬(w.handled (cs.take (n+1))).store.Live i) : ∃ m ≤ n, w.ReleasedAt cs m i := by
  induction hj with
  | refl => exact ⟨j,Nat.le_refl j,hlive,hdead⟩
  | @step n _ ih =>
    by_cases hn : (w.handled (cs.take (n+1))).store.Live i
    · exact ⟨n+1,Nat.le_refl _,hn,hdead⟩
    · obtain ⟨m,hm,hreleased⟩ := ih hn
      exact ⟨m,Nat.le_succ_of_le hm,hreleased⟩

/-- What the registry holds was there when it was handed in. -/
theorem exists_live (hs : s.Counted) (h : (fresh s).Observes cs)
    (hi : ((fresh s).handled (cs.take n)).Owns i) :
    ∃ j ≤ n, ((fresh s).handled (cs.take j)).store.Live i := by
  induction n with
  | zero =>
    obtain ⟨_,_,⟨⟩,_⟩ := hi
  | succ n ih =>
    have hearlier : ((fresh s).handled (cs.take n)).Owns i →
        ∃ j ≤ n+1, ((fresh s).handled (cs.take j)).store.Live i := by
      intro howns
      obtain ⟨j,hj,hlive⟩ := ih howns
      exact ⟨j,Nat.le_succ_of_le hj,hlive⟩
    cases hc : cs[n]? with
    | none =>
      rw [handled_take_of_none hc] at hi
      exact hearlier hi
    | some c =>
      rw [handled_take_succ hc] at hi
      obtain ⟨name,t,ht,hi⟩ := hi
      rcases entry_after ((apart_fresh hs).handled h n).counted (h n c hc) ht with hold|⟨-,hnew⟩
      · exact hearlier ⟨name,t,hold,hi⟩
      · rcases hnew i hi with hspare|⟨-,hlive⟩
        · exact ⟨n,Nat.le_succ n,hspare.1⟩
        · rw [← handled_take_succ hc] at hlive
          exact ⟨n+1,Nat.le_refl _,hlive⟩

/-- The registry holds no released table all the time exactly if no entry is ever exchanged for one
that shares a table with it. A table that leaves the registry without being taken out has been
released once, whatever calls are made. -/
theorem entries_live_iff (hs : s.Reached) (h : (fresh s).Observes cs) :
    ((∀ n i, ((fresh s).handled (cs.take n)).Owns i →
        ((fresh s).handled (cs.take n)).store.Live i) ↔
      ∀ (n : Nat) (c : RegistryCall), cs[n]? = some c →
        ¬c.Straddles ((fresh s).handled (cs.take n))) ∧
    ∀ (n : Nat) (c : RegistryCall) (i : TableId), cs[n]? = some c → (∀ name, c ≠ .take name) →
      ((fresh s).handled (cs.take n)).Owns i → ¬((fresh s).handled (cs.take (n+1))).Owns i →
      ∃ m ≤ n, (fresh s).ReleasedAt cs m i ∧ ∀ k, (fresh s).ReleasedAt cs k i → k = m := by
  have hw : (fresh s).Apart := apart_fresh hs.counted
  refine ⟨⟨fun hall n c hc hstraddles => ?_,fun hnone n => ?_⟩,fun n c i hc htake howns hleft => ?_⟩
  · obtain ⟨i,howns,hdead⟩ := dead_of_straddles (hw.handled h n) hstraddles
    rw [← handled_take_succ hc] at howns hdead
    exact hdead (hall (n+1) i howns)
  · refine handled_of_le (P:=fun v => ∀ i, v.Owns i → v.store.Live i) (Nat.zero_le n) ?_ ?_
    · rintro i ⟨_,_,⟨⟩,_⟩
    · exact fun n c hc ih i => live_after (hw.handled h n) (h n c hc) (hnone n c hc) ih
  · have hapart := hw.handled h n
    have hdead : ¬((fresh s).handled (cs.take (n+1))).store.Live i := by
      rw [handled_take_succ hc] at hleft ⊢
      have hreleased := released_of_left hapart.counted htake howns hleft
      exact fun hlive => (((c.develops hapart.counted).live (hapart.bounded howns)).mp hlive).2
        hreleased
    obtain ⟨j,hj,hlive⟩ := exists_live hs.counted h howns
    obtain ⟨m,hm,hreleased⟩ := exists_releasedAt hj hlive hdead
    exact ⟨m,hm,hreleased,fun k hk => hreleased.unique hw h hk⟩

/-- Two of three tables become an entry, and then the second of them is exchanged for the third. -/
def halfExchanged : List RegistryCall :=
  [.other (.createTable Column.matched),.other (.createTable Column.matched),
    .other (.createTable Column.matched),.put "A" ⟨1⟩ (some ⟨2⟩),.replace "A" ⟨⟨1⟩,⟨3⟩⟩]

/-- The last call releases the first table too, which the entry keeps. The second table leaves the
registry and is released by this call alone. -/
theorem entries_live_iff_halfExchanged :
    (¬∀ n i, ((fresh .empty).handled (halfExchanged.take n)).Owns i →
      ((fresh .empty).handled (halfExchanged.take n)).store.Live i) ∧
    ∃ m ≤ 4, (fresh .empty).ReleasedAt halfExchanged m ⟨2⟩ ∧
      ∀ k, (fresh .empty).ReleasedAt halfExchanged k ⟨2⟩ → k = m := by
  have hbefore : ∀ n t, ((fresh .empty).handled (halfExchanged.take 4)).registry.find? n = some t →
      n = "A" ∧ t = ⟨⟨1⟩,⟨2⟩⟩ := by
    intro n t ht
    have hmem := OrderedMap.mem_of_find? ht
    have hentry : (n,t) = ("A",⟨⟨1⟩,⟨2⟩⟩) := List.mem_singleton.mp hmem
    exact Prod.mk.inj hentry
  have hafter : ∀ n t, ((fresh .empty).handled (halfExchanged.take 5)).registry.find? n = some t →
      t = ⟨⟨1⟩,⟨3⟩⟩ := by
    intro n t ht
    have hmem := OrderedMap.mem_of_find? ht
    have hentry : (n,t) = ("A",⟨⟨1⟩,⟨3⟩⟩) := List.mem_singleton.mp hmem
    exact (Prod.mk.inj hentry).2
  have hobserves : (fresh .empty).Observes halfExchanged := by
    intro n c hc
    match n with
    | 0 | 1 | 2 =>
      cases hc
      exact nofun
    | 3 =>
      cases hc
      intro i hi
      refine ⟨?_,nofun⟩
      rcases List.mem_pair.mp hi with rfl|rfl
      · rfl
      · rfl
    | 4 =>
      cases hc
      intro i hi
      refine ⟨?_,fun n t ht _ => (hbefore n t ht).1⟩
      rcases List.mem_pair.mp hi with rfl|rfl
      · rfl
      · rfl
    | n+5 => cases hc
  obtain ⟨hiff,honce⟩ := entries_live_iff .empty hobserves
  have howns : ((fresh .empty).handled (halfExchanged.take 4)).Owns ⟨2⟩ :=
    ⟨"A",⟨⟨1⟩,⟨2⟩⟩,rfl,List.mem_cons_of_mem _ List.mem_cons_self⟩
  have hleft : ¬((fresh .empty).handled (halfExchanged.take 5)).Owns ⟨2⟩ := by
    rintro ⟨n,t,ht,hi⟩
    rw [hafter n t ht] at hi
    exact absurd hi (by decide)
  refine ⟨fun hall => hiff.mp hall 4 _ rfl ?_,honce 4 _ ⟨2⟩ rfl nofun howns hleft⟩
  exact ⟨⟨⟨1⟩,⟨2⟩⟩,rfl,by decide,⟨1⟩,List.mem_cons_self,List.mem_cons_self⟩

end Workspace

end GraphPattern
