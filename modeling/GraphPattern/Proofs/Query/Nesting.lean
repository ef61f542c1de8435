import GraphPattern.Proofs.Query.Ownership
import Mathlib.Data.List.Nodup
import Mathlib.Logic.Relation

/-!
# Nesting

Containers form a tree below the root: a subquery names the container around it, and a container
lists the subqueries inside it. Containers are numbered in the order of their creation and move
only upwards, so a subquery has a greater number than the container around it. That carries the
main statement: the listing of a whole query meets every live container exactly once.
-/

namespace GraphPattern.Query

/-- Parents and lists of subqueries agree. -/
structure Nested (q : Query) : Prop where
  /-- The root is live and lies in no container. -/
  root : ∃ C, q.container? .root = some C ∧ C.parent? = none
  /-- A listed subquery is live and names the lister. -/
  child : ∀ {p P c}, q.container? p = some P → c ∈ P.subqueries →
    ∃ C, q.container? c = some C ∧ C.parent? = some p
  /-- No list repeats a subquery. -/
  nodup : ∀ {p P}, q.container? p = some P → P.subqueries.Nodup
  /-- A live container other than the root is listed by the container around it. -/
  parent : ∀ {c C}, q.container? c = some C → c ≠ .root →
    ∃ p P, C.parent? = some p ∧ q.container? p = some P ∧ c ∈ P.subqueries
  /-- Inner containers have greater numbers. -/
  below : ∀ {p P c}, q.container? p = some P → c ∈ P.subqueries → p.index<c.index

namespace Nested

variable {q : Query}

/-- Only the root lies in no container. -/
theorem eq_root (h : q.Nested) {c : ContainerId} {C : Container} (hc : q.container? c = some C)
    (hp : C.parent? = none) : c = .root := by
  by_contra hne
  obtain ⟨p,-,hp',-⟩ := h.parent hc hne
  rw [hp] at hp'
  cases hp'

/-- The container around a live subquery lists it. -/
theorem listed (h : q.Nested) {c p : ContainerId} {C : Container} (hc : q.container? c = some C)
    (hp : C.parent? = some p) : ∃ P, q.container? p = some P ∧ c ∈ P.subqueries := by
  have hne : c ≠ .root := fun he => by
    obtain ⟨R,hR,hn⟩ := h.root
    rw [he,hR] at hc
    cases hc
    rw [hn] at hp
    cases hp
  obtain ⟨p',P,hp',hP,hm⟩ := h.parent hc hne
  rw [hp] at hp'
  cases hp'
  exact ⟨P,hP,hm⟩

/-- The subqueries that a container lists are those that lie in it. -/
theorem mem_subqueries (h : q.Nested) {c p : ContainerId} {C P : Container}
    (hp : q.container? p = some P) (hc : q.container? c = some C) :
    c ∈ P.subqueries ↔ C.parent? = some p := by
  constructor
  · intro hm
    obtain ⟨C',hC',hpar⟩ := h.child hp hm
    rw [hc] at hC'
    cases hC'
    exact hpar
  · intro hpar
    obtain ⟨P',hP',hm⟩ := h.listed hc hpar
    rw [hp] at hP'
    cases hP'
    exact hm

/-- Only the parents and the lists of subqueries count. -/
theorem of_same (h : q.Nested) {q' : Query}
    (hc : ∀ c, (q'.container? c).map (fun C => (C.parent?,C.subqueries)) =
      (q.container? c).map fun C => (C.parent?,C.subqueries)) : q'.Nested := by
  constructor
  · obtain ⟨C,hC,hn⟩ := h.root
    obtain ⟨D,hD,he⟩ := exists_of_map_eq (hc .root).symm hC
    exact ⟨D,hD,(Prod.mk.inj he).1.trans hn⟩
  · intro p P c hP hm
    obtain ⟨D,hD,he⟩ := exists_of_map_eq (hc p) hP
    obtain ⟨C,hC,hp⟩ := h.child hD ((Prod.mk.inj he).2 ▸ hm)
    obtain ⟨E,hE,he'⟩ := exists_of_map_eq (hc c).symm hC
    exact ⟨E,hE,(Prod.mk.inj he').1.trans hp⟩
  · intro p P hP
    obtain ⟨D,hD,he⟩ := exists_of_map_eq (hc p) hP
    exact (Prod.mk.inj he).2 ▸ h.nodup hD
  · intro c C hC hne
    obtain ⟨D,hD,he⟩ := exists_of_map_eq (hc c) hC
    obtain ⟨p,P,hpar,hP,hm⟩ := h.parent hD hne
    obtain ⟨E,hE,he'⟩ := exists_of_map_eq (hc p).symm hP
    exact ⟨p,E,(Prod.mk.inj he).1.symm.trans hpar,hE,(Prod.mk.inj he').2 ▸ hm⟩
  · intro p P c hP hm
    obtain ⟨D,hD,he⟩ := exists_of_map_eq (hc p) hP
    exact h.below hD ((Prod.mk.inj he).2 ▸ hm)

/-- A new subquery without members at the end of a list. -/
theorem push (h : q.Nested) {p : ContainerId} {P S : Container} {f : Container → Container}
    (hp : q.container? p = some P) (hS : S.parent? = some p) (hs : S.subqueries = [])
    (hf : (f P).parent? = P.parent? ∧ (f P).subqueries = P.subqueries ++ [q.nextContainer]) :
    ((q.pushContainer S).mapContainer p f).Nested := by
  have hn := q.container?_nextContainer
  have hlt : p.index<q.nextContainer.index := index_lt_of_container? hp
  have hpn : p ≠ q.nextContainer := fun he => by rw [he,hn] at hp; cases hp
  have hrn : ContainerId.root ≠ q.nextContainer := fun he => by
    obtain ⟨R,hR,-⟩ := h.root
    rw [he,hn] at hR
    cases hR
  have hchild := @h.child
  constructor
  · obtain ⟨R,hR,hr⟩ := h.root
    simp only [container?_mapContainer,container?_pushContainer]
    grind
  · intro d D c hD hm
    simp only [container?_mapContainer,container?_pushContainer] at hD ⊢
    grind
  · intro d D hD
    have hnd := @h.nodup
    simp only [container?_mapContainer,container?_pushContainer] at hD
    grind [List.nodup_append]
  · intro c C hC hne
    have hpar := @h.parent
    simp only [container?_mapContainer,container?_pushContainer] at hC ⊢
    grind
  · intro d D c hD hm
    have hb := @h.below
    simp only [container?_mapContainer,container?_pushContainer] at hD
    grind

/-- Removal of a subquery without subqueries of its own. -/
theorem drop (h : q.Nested) {c p : ContainerId} {C P : Container} {f : Container → Container}
    (hc : q.container? c = some C) (hs : C.subqueries = []) (hcp : C.parent? = some p)
    (hp : q.container? p = some P)
    (hf : (f P).parent? = P.parent? ∧ (f P).subqueries = P.subqueries.filter (· ≠ c)) :
    ((q.mapContainer p f).dropContainer c).Nested := by
  have hchild := @h.child
  have hcr : c ≠ .root := fun he => by
    obtain ⟨R,hR,hr⟩ := h.root
    rw [he,hR] at hc
    cases hc
    rw [hr] at hcp
    cases hcp
  constructor
  · obtain ⟨R,hR,hr⟩ := h.root
    simp only [container?_dropContainer,container?_mapContainer]
    grind
  · intro d D e hD hm
    simp only [container?_dropContainer,container?_mapContainer] at hD ⊢
    grind
  · intro d D hD
    have hnd := @h.nodup
    simp only [container?_dropContainer,container?_mapContainer] at hD
    grind
  · intro d D hD hne
    have hpar := @h.parent
    simp only [container?_dropContainer,container?_mapContainer] at hD ⊢
    grind
  · intro d D e hD hm
    have hb := @h.below
    simp only [container?_dropContainer,container?_mapContainer] at hD
    grind

/-- A container around another one was there before it. -/
theorem parent_lt (h : q.Nested) {s p : ContainerId} {S : Container}
    (hs : q.container? s = some S) (hsp : S.parent? = some p) : p.index<s.index := by
  obtain ⟨P,hP,hmem⟩ := h.listed hs hsp
  exact h.below hP hmem

/-- If the subqueries of one container are handed over to the container around it, one rule says for
all containers where they lie and what they list. For neither of the two lies in the first one. -/
theorem map_handedOver (h : q.Nested) {s p : ContainerId} {S P : Container} {q' : Query}
    (hs : q.container? s = some S) (hsp : S.parent? = some p) (hp : q.container? p = some P)
    (hqs : ∃ S', q'.container? s = some S' ∧ S'.parent? = some p ∧ S'.subqueries = [])
    (hqp : ∃ P', q'.container? p = some P' ∧ P'.parent? = P.parent? ∧
      P'.subqueries = P.subqueries ++ S.subqueries)
    (hq : ∀ c, c ≠ s → c ≠ p → (q'.container? c).map (fun C => (C.parent?,C.subqueries)) =
      (q.container? c).map fun C =>
        (if C.parent? = some s then some p else C.parent?,C.subqueries)) (c : ContainerId) :
    (q'.container? c).map (fun C => (C.parent?,C.subqueries)) =
      (q.container? c).map fun C => (if C.parent? = some s then some p else C.parent?,
        handedOver s p c S.subqueries C.subqueries) := by
  obtain ⟨S',hS',hS'p,hS's⟩ := hqs
  obtain ⟨P',hP',hP'p,hP's⟩ := hqp
  have hlt := h.parent_lt hs hsp
  have hps : p ≠ s := fun he => Nat.lt_irrefl _ (he ▸ hlt)
  have hPp : P.parent? ≠ some s := fun he => Nat.lt_asymm hlt (h.parent_lt hp he)
  by_cases hcs : c = s
  · rw [hcs,hS',hs,Option.map_some,Option.map_some,hS'p,hS's,hsp,handedOver,if_pos rfl,
      if_neg fun he => hps (Option.some.inj he)]
  · by_cases hcp : c = p
    · rw [hcp,hP',hp,Option.map_some,Option.map_some,hP'p,hP's,handedOver,if_neg hps,if_pos rfl,
        if_neg hPp]
    · simp only [handedOver,if_neg hcs,if_neg hcp]
      exact hq c hcs hcp

/-- The subqueries of one container handed over to the container around it. -/
theorem lift (h : q.Nested) {s p : ContainerId} {S P : Container} {q' : Query}
    (hs : q.container? s = some S) (hsp : S.parent? = some p) (hp : q.container? p = some P)
    (hqs : ∃ S', q'.container? s = some S' ∧ S'.parent? = some p ∧ S'.subqueries = [])
    (hqp : ∃ P', q'.container? p = some P' ∧ P'.parent? = P.parent? ∧
      P'.subqueries = P.subqueries ++ S.subqueries)
    (hq : ∀ c, c ≠ s → c ≠ p → (q'.container? c).map (fun C => (C.parent?,C.subqueries)) =
      (q.container? c).map fun C =>
        (if C.parent? = some s then some p else C.parent?,C.subqueries)) : q'.Nested := by
  have hlift := h.map_handedOver hs hsp hp hqs hqp hq
  obtain ⟨P',hP',-,hP's⟩ := hqp
  have hlt := h.parent_lt hs hsp
  have hps : p ≠ s := fun he => Nat.lt_irrefl _ (he ▸ hlt)
  -- A subquery of the first container lies in the second one now.
  have hchild : ∀ {d D c}, q.container? d = some D → c ∈ D.subqueries →
      ∃ C, q'.container? c = some C ∧ C.parent? = if d = s then some p else some d := by
    intro d D c hD hm
    obtain ⟨C,hC,hCp⟩ := h.child hD hm
    obtain ⟨C',hC',he⟩ := exists_of_map_eq (hlift c).symm hC
    refine ⟨C',hC',(Prod.mk.inj he).1.trans ?_⟩
    simp only [hCp,Option.some.injEq]
  constructor
  · obtain ⟨R,hR,hr⟩ := h.root
    obtain ⟨R',hR',he⟩ := exists_of_map_eq (hlift .root).symm hR
    exact ⟨R',hR',(Prod.mk.inj he).1.trans (by rw [hr]; rfl)⟩
  · intro d D' c hD' hm
    obtain ⟨D,hD,he⟩ := exists_of_map_eq (hlift d) hD'
    rw [← (Prod.mk.inj he).2] at hm
    obtain ⟨hds,hown|⟨rfl,hgiven⟩⟩ := mem_handedOver.mp hm
    · simpa only [if_neg hds] using hchild hD hown
    · simpa only [if_true] using hchild hs hgiven
  · intro d D' hD'
    obtain ⟨D,hD,he⟩ := exists_of_map_eq (hlift d) hD'
    rw [← (Prod.mk.inj he).2]
    refine nodup_handedOver (h.nodup hD) (h.nodup hs) fun hdp c hc hc' => ?_
    obtain ⟨C,hC,hCd⟩ := h.child hD hc
    obtain ⟨E,hE,hEs⟩ := h.child hs hc'
    rw [hC] at hE
    cases hE
    exact hps (hdp ▸ Option.some.inj (hCd.symm.trans hEs))
  · intro c C' hC' hne
    obtain ⟨C,hC,-⟩ := exists_of_map_eq (hlift c) hC'
    obtain ⟨d,D,-,hD,hm⟩ := h.parent hC hne
    obtain ⟨E,hE,hpar⟩ := hchild hD hm
    rw [hC'] at hE
    cases hE
    by_cases hds : d = s
    · subst hds
      rw [hs] at hD
      cases hD
      exact ⟨p,P',hpar.trans (if_pos rfl),hP',by rw [hP's]; exact List.mem_append_right _ hm⟩
    · obtain ⟨D',hD',he⟩ := exists_of_map_eq (hlift d).symm hD
      refine ⟨d,D',hpar.trans (if_neg hds),hD',?_⟩
      rw [(Prod.mk.inj he).2]
      exact mem_handedOver.mpr ⟨hds,.inl hm⟩
  · intro d D' c hD' hm
    obtain ⟨D,hD,he⟩ := exists_of_map_eq (hlift d) hD'
    rw [← (Prod.mk.inj he).2] at hm
    obtain ⟨-,hown|⟨rfl,hgiven⟩⟩ := mem_handedOver.mp hm
    · exact h.below hD hown
    · exact Nat.lt_trans hlt (h.below hs hgiven)

end Nested

/-- The relation between a container and a subquery directly inside it. -/
def Holds (q : Query) (p c : ContainerId) : Prop :=
  ∃ P, q.container? p = some P ∧ c ∈ P.subqueries

namespace Nested

open Relation

variable {q : Query}

theorem index_lt (h : q.Nested) {p c : ContainerId} (hc : q.Holds p c) : p.index<c.index := by
  obtain ⟨P,hP,hm⟩ := hc
  exact h.below hP hm

theorem index_le (h : q.Nested) {p c : ContainerId} (hc : ReflTransGen q.Holds p c) :
    p.index≤c.index := by
  induction hc with
  | refl => exact Nat.le_refl _
  | tail _ hc ih => exact Nat.le_trans ih (Nat.le_of_lt (h.index_lt hc))

/-- A subquery lies directly inside one container only. -/
theorem holds_unique (h : q.Nested) {p p' c : ContainerId} (hc : q.Holds p c)
    (hc' : q.Holds p' c) : p = p' := by
  obtain ⟨P,hP,hm⟩ := hc
  obtain ⟨P',hP',hm'⟩ := hc'
  obtain ⟨C,hC,hp⟩ := h.child hP hm
  obtain ⟨C',hC',hp'⟩ := h.child hP' hm'
  rw [hC] at hC'
  cases hC'
  exact Option.some.inj (hp.symm.trans hp')

/-- Of two containers around a third one, one lies around the other. -/
theorem comparable (h : q.Nested) {a b c : ContainerId} (ha : ReflTransGen q.Holds a c)
    (hb : ReflTransGen q.Holds b c) :
    ReflTransGen q.Holds a b ∨ ReflTransGen q.Holds b a := by
  have hu : Relator.RightUnique (Function.swap q.Holds) :=
    fun _ _ _ hx hy => h.holds_unique hx hy
  have ha' := reflTransGen_swap.mpr ha
  have hb' := reflTransGen_swap.mpr hb
  rcases ReflTransGen.total_of_right_unique hu ha' hb' with hab|hba
  · exact .inr (reflTransGen_swap.mp hab)
  · exact .inl (reflTransGen_swap.mp hba)

/-- Every live container lies below the root. -/
theorem reachable (h : q.Nested) {c : ContainerId} {C : Container}
    (hc : q.container? c = some C) : ReflTransGen q.Holds .root c := by
  -- Induction on the number of the container, which falls on the way up.
  induction hn : c.index using Nat.strongRecOn generalizing c C with
  | ind n ih =>
    by_cases hr : c = .root
    · rw [hr]
    · obtain ⟨p,P,-,hP,hm⟩ := h.parent hc hr
      have hlt := h.below hP hm
      exact (ih p.index (hn ▸ hlt) hP rfl).tail ⟨P,hP,hm⟩

/-- What lies below a live container is live. -/
theorem live_of_reachable (h : q.Nested) {c d : ContainerId} (hcd : ReflTransGen q.Holds c d)
    (hc : (q.container? c).isSome = true) : (q.container? d).isSome = true := by
  induction hcd with
  | refl => exact hc
  | tail _ hd _ =>
    obtain ⟨P,hP,hm⟩ := hd
    obtain ⟨C,hC,-⟩ := h.child hP hm
    rw [hC]
    rfl

/-- With depth enough for all greater numbers, the listing below a container holds exactly what
lies below it. -/
theorem mem_containersBelow (h : q.Nested) {c d : ContainerId} {C : Container} {depth : Nat}
    (hc : q.container? c = some C) (hd : q.containers.next≤c.index+depth) :
    d ∈ q.containersBelow depth c ↔ ReflTransGen q.Holds c d := by
  induction depth generalizing c C with
  | zero => exact absurd (index_lt_of_container? hc) (by omega)
  | succ depth ih =>
    simp only [containersBelow,hc,List.mem_cons,List.mem_flatMap]
    rw [ReflTransGen.cases_head_iff]
    refine or_congr eq_comm ⟨?_,?_⟩
    · rintro ⟨e,he,hde⟩
      obtain ⟨E,hE,-⟩ := h.child hc he
      have hlt := h.below hc he
      exact ⟨e,⟨C,hc,he⟩,(ih hE (by omega)).mp hde⟩
    · rintro ⟨e,⟨C',hC',he⟩,hed⟩
      rw [hc] at hC'
      cases hC'
      obtain ⟨E,hE,-⟩ := h.child hc he
      have hlt := h.below hc he
      exact ⟨e,he,(ih hE (by omega)).mpr hed⟩

/-- Nothing lies below two of the subqueries directly inside a container. -/
theorem eq_of_siblings (h : q.Nested) {c a b d : ContainerId} (ha : q.Holds c a)
    (hb : q.Holds c b) (had : ReflTransGen q.Holds a d) (hbd : ReflTransGen q.Holds b d) :
    a = b := by
  -- Of two siblings neither lies below the other.
  have apart : ∀ {x y}, q.Holds c x → q.Holds c y → ReflTransGen q.Holds x y → x = y := by
    intro x y hx hy hxy
    rcases ReflTransGen.cases_tail hxy with he|⟨p,hxp,hpy⟩
    · exact he.symm
    · rw [h.holds_unique hpy hy] at hxp
      exact absurd (h.index_le hxp) (Nat.not_le.mpr (h.index_lt hx))
  rcases h.comparable had hbd with hab|hba
  · exact apart ha hb hab
  · exact (apart hb ha hba).symm

/-- A depth that is enough for a container is more than enough for its subqueries. -/
theorem deep_enough (h : q.Nested) {c : ContainerId} {C : Container} {depth : Nat}
    (hc : q.container? c = some C) (hd : q.containers.next≤c.index+(depth+1)) :
    ∀ e ∈ C.subqueries, ∃ E, q.container? e = some E ∧ q.containers.next≤e.index+depth := by
  intro e he
  obtain ⟨E,hE,-⟩ := h.child hc he
  have hlt := h.below hc he
  exact ⟨E,hE,by omega⟩

/-- The listing below a container repeats nothing. -/
theorem nodup_containersBelow (h : q.Nested) {c : ContainerId} {C : Container} {depth : Nat}
    (hc : q.container? c = some C) (hd : q.containers.next≤c.index+depth) :
    (q.containersBelow depth c).Nodup := by
  induction depth generalizing c C with
  | zero => exact absurd (index_lt_of_container? hc) (by omega)
  | succ depth ih =>
    have inner := h.deep_enough hc hd
    simp only [containersBelow,hc]
    refine List.nodup_cons.mpr ⟨fun hm => ?_,List.nodup_flatMap.mpr ⟨fun e he => ?_,?_⟩⟩
    · obtain ⟨e,he,hce⟩ := List.mem_flatMap.mp hm
      obtain ⟨E,hE,hn⟩ := inner e he
      have hle := h.index_le ((h.mem_containersBelow hE hn).mp hce)
      exact absurd (h.below hc he) (by omega)
    · obtain ⟨E,hE,hn⟩ := inner e he
      exact ih hE hn
    · refine (h.nodup hc).imp_of_mem fun {a b} ha hb hab d hda hdb => hab ?_
      obtain ⟨A,hA,hna⟩ := inner a ha
      obtain ⟨B,hB,hnb⟩ := inner b hb
      exact h.eq_of_siblings ⟨C,hc,ha⟩ ⟨C,hc,hb⟩ ((h.mem_containersBelow hA hna).mp hda)
        ((h.mem_containersBelow hB hnb).mp hdb)

/-- The listing below a container has no container behind one that lies inside it. -/
theorem ordered_containersBelow (h : q.Nested) {c : ContainerId} {C : Container} {depth : Nat}
    (hc : q.container? c = some C) (hd : q.containers.next≤c.index+depth) :
    (q.containersBelow depth c).Pairwise fun a b => ¬q.Holds b a := by
  induction depth generalizing c C with
  | zero => exact absurd (index_lt_of_container? hc) (by omega)
  | succ depth ih =>
    have inner := h.deep_enough hc hd
    simp only [containersBelow,hc]
    refine List.pairwise_cons.mpr ⟨fun b hb hbc => ?_,List.pairwise_flatMap.mpr
      ⟨fun e he => ?_,?_⟩⟩
    · obtain ⟨e,he,hbe⟩ := List.mem_flatMap.mp hb
      obtain ⟨E,hE,hn⟩ := inner e he
      have hle := h.index_le ((h.mem_containersBelow hE hn).mp hbe)
      have hlt := h.below hc he
      have hlt' := h.index_lt hbc
      omega
    · obtain ⟨E,hE,hn⟩ := inner e he
      exact ih hE hn
    · refine (h.nodup hc).imp_of_mem fun {x y} hx hy hxy a ha b hb hba => hxy ?_
      obtain ⟨X,hX,hnx⟩ := inner x hx
      obtain ⟨Y,hY,hny⟩ := inner y hy
      exact h.eq_of_siblings ⟨C,hc,hx⟩ ⟨C,hc,hy⟩ ((h.mem_containersBelow hX hnx).mp ha)
        (((h.mem_containersBelow hY hny).mp hb).tail hba)

/-- The listing of a query holds exactly the live containers. -/
theorem mem_containerIds (h : q.Nested) {c : ContainerId} :
    c ∈ q.containerIds ↔ (q.container? c).isSome = true := by
  obtain ⟨R,hR,-⟩ := h.root
  rw [containerIds,h.mem_containersBelow hR (by omega)]
  constructor
  · intro hc
    exact h.live_of_reachable hc (by rw [hR]; rfl)
  · intro hc
    obtain ⟨C,hC⟩ := Option.isSome_iff_exists.mp hc
    exact h.reachable hC

/-- The listing of a query repeats no container. -/
theorem nodup_containerIds (h : q.Nested) : q.containerIds.Nodup := by
  obtain ⟨R,hR,-⟩ := h.root
  exact h.nodup_containersBelow hR (by omega)

end Nested

/-! ## Listings over containers -/

section Listings

variable {α : Type} {q : Query} {f : Container → List α} {a : α}

/-- What a listing gathers comes from a live container. -/
theorem exists_container_of_mem {extent : Extent} (ha : a ∈ (q.containersIn extent).flatMap f) :
    ∃ c C, q.container? c = some C ∧ a ∈ f C := by
  obtain ⟨C,hC,ha⟩ := List.mem_flatMap.mp ha
  obtain ⟨c,-,hc⟩ := List.mem_filterMap.mp hC
  exact ⟨c,C,hc,ha⟩

/-- A listing of the whole query leaves out no container. -/
theorem Nested.mem_flatMap_containersIn (h : q.Nested) {c : ContainerId} {C : Container}
    (hC : q.container? c = some C) (ha : a ∈ f C) : a ∈ (q.containersIn .whole).flatMap f :=
  List.mem_flatMap.mpr ⟨C,List.mem_filterMap.mpr ⟨c,h.mem_containerIds.mpr (by rw [hC]; rfl),hC⟩,ha⟩

end Listings

end GraphPattern.Query
