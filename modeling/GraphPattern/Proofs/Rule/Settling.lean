import GraphPattern.Proofs.Rule.Solvable

/-!
# Constraints that can be settled

Of constraints that are alike the first one goes whenever one is processed, and only one without
annotation is. So all of them can go exactly if the last one is not annotated, and every reduction
keeps this, forwards and backwards.
-/

namespace GraphPattern

/-- Of any constraints on the list that are alike, the last one is not annotated. -/
def Settles (ks : List Constraint) : Prop :=
  ∀ k ∈ ks, ∃ m, (ks.filter k.sameRelation).getLast? = some m ∧ m.bounds = none

section First

variable {before after : List Constraint} {j k found : Constraint}

/-- What is like the one that goes stands behind it. -/
theorem filter_before (like : k.sameRelation found = true)
    (unlike : ∀ i ∈ before, k.sameRelation i = false) (hj : j.sameRelation found = true) :
    before.filter j.sameRelation = [] := by
  refine List.filter_eq_nil_iff.mpr fun i hi hji => ?_
  have hki := Constraint.sameRelation_trans
    (Constraint.sameRelation_trans like (Constraint.sameRelation_symm hj)) hji
  rw [unlike i hi] at hki
  cases hki

/-- What is not like the one that goes is not affected. -/
theorem filter_unlike (hj : j.sameRelation found = false) :
    (before ++ found :: after).filter j.sameRelation = (before ++ after).filter j.sameRelation := by
  rw [List.filter_append,List.filter_append,
    List.filter_cons_of_neg (by rw [hj]; exact Bool.false_ne_true)]

theorem filter_with (like : k.sameRelation found = true)
    (unlike : ∀ i ∈ before, k.sameRelation i = false) (hj : j.sameRelation found = true) :
    (before ++ found :: after).filter j.sameRelation = found :: after.filter j.sameRelation := by
  rw [List.filter_append,filter_before like unlike hj,List.filter_cons_of_pos hj,List.nil_append]

theorem filter_without (like : k.sameRelation found = true)
    (unlike : ∀ i ∈ before, k.sameRelation i = false) (hj : j.sameRelation found = true) :
    (before ++ after).filter j.sameRelation = after.filter j.sameRelation := by
  rw [List.filter_append,filter_before like unlike hj,List.nil_append]

/-- What is like a constraint is what is like any constraint that is like it. -/
theorem Constraint.sameRelation_eq (h : j.sameRelation k = true) :
    k.sameRelation = j.sameRelation := by
  funext i
  rw [Bool.eq_iff_iff]
  exact ⟨Constraint.sameRelation_trans h,
    Constraint.sameRelation_trans (Constraint.sameRelation_symm h)⟩

theorem Settles.drop (h : Settles (before ++ found :: after)) (like : k.sameRelation found = true)
    (unlike : ∀ i ∈ before, k.sameRelation i = false) : Settles (before ++ after) := by
  intro j hj
  obtain ⟨m,hm,hb⟩ := h j (by
    rcases List.mem_append.mp hj with hj|hj
    · exact List.mem_append_left _ hj
    · exact List.mem_append_right _ (List.mem_cons_of_mem _ hj))
  refine ⟨m,?_,hb⟩
  cases hjf : j.sameRelation found with
  | false => rw [← filter_unlike hjf,hm]
  | true =>
    have hjj := Constraint.sameRelation_self (Constraint.sameRelation_symm hjf)
    have hmem : j ∈ (before ++ after).filter j.sameRelation := List.mem_filter.mpr ⟨hj,hjj⟩
    rw [filter_without like unlike hjf] at hmem ⊢
    rw [filter_with like unlike hjf,List.getLast?_cons_of_ne_nil (List.ne_nil_of_mem hmem)] at hm
    exact hm

theorem Settles.restore (h : Settles (before ++ after)) (like : k.sameRelation found = true)
    (unlike : ∀ i ∈ before, k.sameRelation i = false)
    (listed : k ∈ before ++ found :: after) (bounds : k.bounds = none) :
    Settles (before ++ found :: after) := by
  intro j hj
  cases hjf : j.sameRelation found with
  | false =>
    rw [filter_unlike hjf]
    refine h j ?_
    rcases List.mem_append.mp hj with hj|hj
    · exact List.mem_append_left _ hj
    · rcases List.mem_cons.mp hj with rfl|hj
      · rw [Constraint.sameRelation_self like] at hjf
        cases hjf
      · exact List.mem_append_right _ hj
  | true =>
    rw [filter_with like unlike hjf]
    rcases List.eq_nil_or_concat (after.filter j.sameRelation) with hnil|⟨rest,last,hlast⟩
    · -- It is the last of its kind, so it is the one without annotation.
      have hkf : k = found := by
        rcases List.mem_append.mp listed with hk|hk
        · have hself := Constraint.sameRelation_self (Constraint.sameRelation_symm like)
          rw [unlike k hk] at hself
          cases hself
        · rcases List.mem_cons.mp hk with hk|hk
          · exact hk
          · have hjk := Constraint.sameRelation_trans hjf (Constraint.sameRelation_symm like)
            have hmem := List.mem_filter.mpr ⟨hk,hjk⟩
            rw [hnil] at hmem
            cases hmem
      exact ⟨found,by rw [hnil]; rfl,hkf ▸ bounds⟩
    · have hlm : last ∈ after.filter j.sameRelation := by
        rw [hlast]
        simp
      obtain ⟨hla,hjl⟩ := List.mem_filter.mp hlm
      obtain ⟨m,hm,hb⟩ := h last (List.mem_append_right _ hla)
      rw [Constraint.sameRelation_eq hjl,filter_without like unlike hjf] at hm
      exact ⟨m,by rw [List.getLast?_cons_of_ne_nil (List.ne_nil_of_mem hlm),hm],hb⟩

/-- The first one of its kind makes no difference if one without annotation is on the list. -/
theorem settles_iff (like : k.sameRelation found = true)
    (unlike : ∀ i ∈ before, k.sameRelation i = false)
    (listed : k ∈ before ++ found :: after) (bounds : k.bounds = none) :
    Settles (before ++ found :: after) ↔ Settles (before ++ after) :=
  ⟨fun h => h.drop like unlike,fun h => h.restore like unlike listed bounds⟩

end First

namespace Query

open Rule

variable {q q' : Query} {n m : Nat} {rule : Rule} {a : Application} {out : ItemId}

/-- What the first containers declare, in the order of their numbers. -/
def declarations (q : Query) (n : Nat) : List Constraint :=
  (List.range n).flatMap fun c => q.declared ⟨c⟩

/-- The numbers of containers that declare something are smaller. -/
def Bounded (q : Query) (n : Nat) : Prop := ∀ c : ContainerId, n≤c.index → q.declared c = []

/-- All constraints can be settled as far as annotations go. -/
def Settling (q : Query) : Prop := ∀ n, q.Bounded n → Settles (q.declarations n)

theorem bounded_next (q : Query) : q.Bounded q.containers.next := by
  intro c hc
  cases hC : q.container? c with
  | none =>
    rw [declared,hC]
    rfl
  | some C => exact absurd (index_lt_of_container? hC) (Nat.not_lt_of_le hc)

theorem Bounded.mono (h : q.Bounded n) (hnm : n ≤ m) : q.Bounded m :=
  fun c hc => h c (Nat.le_trans hnm hc)

/-- Greater numbers add nothing. -/
theorem Bounded.declarations_eq (h : q.Bounded n) (hnm : n ≤ m) :
    q.declarations m = q.declarations n := by
  obtain ⟨d,rfl⟩ := Nat.exists_eq_add_of_le hnm
  have hrest : ((List.range d).map (n + ·)).flatMap (fun c => q.declared ⟨c⟩) = [] := by
    rw [List.flatMap_eq_nil_iff]
    intro c hc
    obtain ⟨i,-,rfl⟩ := List.mem_map.mp hc
    exact h ⟨n+i⟩ (Nat.le_add_right n i)
  rw [declarations,List.range_add,List.flatMap_append,hrest,List.append_nil,declarations]

theorem mem_declarations {k : Constraint} :
    k ∈ q.declarations n ↔ ∃ c : ContainerId, c.index<n ∧ k ∈ q.declared c := by
  rw [declarations,List.mem_flatMap]
  constructor
  · rintro ⟨c,hc,hk⟩
    exact ⟨⟨c⟩,List.mem_range.mp hc,hk⟩
  · rintro ⟨c,hc,hk⟩
    exact ⟨c.index,List.mem_range.mpr hc,hk⟩

/-- What a dropped constraint leaves of the declarations. -/
theorem Drops.declarations {k found : Constraint} {c : ContainerId} {before after : List Constraint}
    (h : q.Drops q' k found c before after) (hc : c.index<n) :
    ∃ l r, q.declarations n = l ++ found :: r ∧ q'.declarations n = l ++ r ∧
      ∀ j ∈ l, k.sameRelation j = false := by
  obtain ⟨l,r,hlr⟩ := List.append_of_mem (List.mem_range.mpr hc)
  have hsorted := List.pairwise_lt_range (n:=n)
  rw [hlr,List.pairwise_append] at hsorted
  obtain ⟨-,hr,hl⟩ := hsorted
  have hother : ∀ {is : List Nat}, (∀ i ∈ is, i ≠ c.index) →
      is.flatMap (fun i => q'.declared ⟨i⟩) = is.flatMap fun i => q.declared ⟨i⟩ := by
    intro is his
    refine List.flatMap_congr fun i hi => h.other ⟨i⟩ fun he => his i hi ?_
    rw [← he]
  have hl' := hother fun i hi => Nat.ne_of_lt (hl i hi c.index List.mem_cons_self)
  have hr' := hother fun i hi => Nat.ne_of_gt (List.rel_of_pairwise_cons hr hi)
  refine ⟨l.flatMap (fun i => q.declared ⟨i⟩) ++ before,
    after ++ r.flatMap fun i => q.declared ⟨i⟩,?_,?_,fun j hj => ?_⟩
  · rw [Query.declarations,hlr,List.flatMap_append,List.flatMap_cons,h.here]
    simp only [List.append_assoc,List.cons_append]
  · rw [Query.declarations,hlr,List.flatMap_append,List.flatMap_cons,hl',hr',h.rest]
    simp only [List.append_assoc]
  · rcases List.mem_append.mp hj with hj|hj
    · obtain ⟨i,hi,hj⟩ := List.mem_flatMap.mp hj
      exact h.earlier ⟨i⟩ (hl i hi c.index List.mem_cons_self) j hj
    · exact h.unlike j hj

/-- A declared constraint is like one without annotation, which is declared as well. -/
theorem Settling.exists_plain (h : q.Settling) {c : ContainerId} {k : Constraint}
    (hk : k ∈ q.declared c) : ∃ d m, m ∈ q.declared d ∧ k.sameRelation m = true ∧
      m.bounds = none := by
  have hn := q.bounded_next
  have hlt : c.index<q.containers.next := by
    by_contra hc
    rw [hn c (Nat.le_of_not_lt hc)] at hk
    cases hk
  obtain ⟨m,hm,hb⟩ := h _ hn k (mem_declarations.mpr ⟨c,hlt,hk⟩)
  obtain ⟨hm,hkm⟩ := List.mem_filter.mp (List.mem_of_getLast? hm)
  obtain ⟨d,-,hd⟩ := mem_declarations.mp hm
  exact ⟨d,m,hd,hkm,hb⟩

end Query

namespace Rule

open Query

variable {q q' : Query} {n : Nat} {rule : Rule} {a : Application} {out : ItemId}

/-- A container declares what it declared, or less. -/
theorem Reduction.declared_subset (hr : Reduction q rule a q' out) (h : q.WellFormed)
    {c : ContainerId} {k : Constraint} (hk : k ∈ q'.declared c) : k ∈ q.declared c := by
  rcases hr.declared h with ⟨-,hsame⟩|⟨l,found,d,before,after,-,-,hd⟩
  · rw [← hsame]
    exact hk
  · by_cases hcd : c = d
    · rw [hcd,hd.rest] at hk
      rw [hcd,hd.here]
      rcases List.mem_append.mp hk with hk|hk
      · exact List.mem_append_left _ hk
      · exact List.mem_append_right _ (List.mem_cons_of_mem _ hk)
    · rw [← hd.other c hcd]
      exact hk

theorem Reduction.bounded (hr : Reduction q rule a q' out) (h : q.WellFormed) (hn : q.Bounded n) :
    q'.Bounded n := by
  intro c hc
  refine List.eq_nil_iff_forall_not_mem.mpr fun k hk => ?_
  have hk' := hr.declared_subset h hk
  rw [hn c hc] at hk'
  cases hk'

theorem Reduction.settles_iff (hr : Reduction q rule a q' out) (h : q.WellFormed)
    (hn : q.Bounded n) : Settles (q.declarations n) ↔ Settles (q'.declarations n) := by
  rcases hr.declared h with ⟨-,hsame⟩|⟨k,found,c,before,after,-,hk,hd⟩
  · rw [declarations,declarations]
    simp only [hsame]
  · have hlt : ∀ {d : ContainerId} {j : Constraint}, j ∈ q.declared d → d.index<n := by
      intro d j hj
      by_contra hd
      rw [hn d (Nat.le_of_not_lt hd)] at hj
      cases hj
    obtain ⟨l,r,hq,hq',hl⟩ := hd.declarations (hlt (d:=c) (j:=found) (by rw [hd.here]; simp))
    obtain ⟨d,hkd⟩ := hk.declared
    rw [hq,hq']
    exact GraphPattern.settles_iff hd.like hl (hq ▸ mem_declarations.mpr ⟨d,hlt hkd,hkd⟩) hk.bounds

/-- Every reduction keeps what can be settled, forwards and backwards. -/
theorem Reduction.settling_iff (hr : Reduction q rule a q' out) (h : q.WellFormed) :
    q.Settling ↔ q'.Settling := by
  constructor
  · intro hs n hn
    have hle := Nat.le_max_left n q.containers.next
    have hm := q.bounded_next.mono (Nat.le_max_right n q.containers.next)
    rw [← hn.declarations_eq hle]
    exact (hr.settles_iff h hm).mp (hs _ hm)
  · intro hs n hn
    exact (hr.settles_iff h hn).mpr (hs n (hr.bounded h hn))

end Rule

namespace Query

/-- In a query that can be solved all constraints can be settled. -/
theorem Solvable.settling {q : Query} (h : q.WellFormed) (hs : q.Solvable) : q.Settling := by
  refine hs.back h (fun hu hc n _ => ?_) fun hq hr ih => (hr.settling_iff hq).mpr ih
  obtain ⟨-,-,-,-,-,-,hnone⟩ := eq_of_consolidated hu hc
  intro k hk
  obtain ⟨c,-,hk⟩ := mem_declarations.mp hk
  rw [hnone] at hk
  cases hk

end Query

end GraphPattern
