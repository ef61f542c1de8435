import GraphPattern.Proofs.Execution.Entries
import GraphPattern.Proofs.Matches.Reductions

/-!
# What the registry holds

Before every step of a run the entry of a composite vertex presents the bindings that fit the items
in its place, with the constraints that have been processed so far. A step that is replayed keeps
this, as long as no two composite vertices have the same joined names.
-/

namespace GraphPattern

open Matches Rule Step Workspace

/-- The processed constraints after one more application of a rule. -/
def Application.enforced (a : Application) (D : Set Constraint) : Set Constraint :=
  a.constraint.elim D fun k => insert k D

namespace Query

variable {q₀ q q' : Query} {f : ItemId → ItemId} {out v u e : ItemId} {rule : Rule} {a : Application}
  {s : Store} {D : Set Constraint} {N : Set String} {w w' : Workspace} {x y z : Item}
  {taken : List String} {O L : Rows}

/-- A processed constraint that is not about items in some place changes nothing there. -/
theorem fitting_insert {k : Constraint} {owed : Option String} (hk : ∃ n ∈ k.itemNames, n ∉ N) :
    q.fitting s (insert k D) owed N = q.fitting s D owed N := by
  obtain ⟨n,hn,hN⟩ := hk
  ext b
  constructor
  · intro hb
    exact ⟨hb.within,hb.item,fun l hl => hb.constraint l (.inr hl)⟩
  · intro hb
    refine ⟨hb.within,hb.item,fun l hl hlN hcon => ?_⟩
    rcases hl with rfl|hl
    · exact absurd (hlN n hn) hN
    · exact hb.constraint l hl hlN hcon

/-- After a reduction the constraints are accounted for that it processes. -/
theorem Accounts.step (hD : q₀.Accounts q D) (h₀ : q₀.Definite) (h : q₀.Lineal q f)
    (hr : Reduction q rule a q' out) : q₀.Accounts q' (a.enforced D) := by
  have hc := hr.changes h.wellFormed
  have hcovers : ∀ k, q.Covers k → q'.Covers k := fun k ⟨v,x,hx,hk,hn⟩ => by
    by_cases hm : v ∈ a.items
    · obtain ⟨y,hy,hky,hny⟩ := hc.out
      exact ⟨out,y,hy,hky,fun n hnk => (hny n).mpr ⟨v,hm,x,hx,hn n hnk⟩⟩
    · obtain ⟨-,y,hy,hf⟩ := hc.forth hx hm
      exact ⟨v,y,hy,hf.kind.trans hk,fun n hnk => hf.names ▸ hn n hnk⟩
  rcases hr.declared h.wellFormed with ⟨ha,hsame⟩|⟨k,found,c,before,after,ha,hk,hdrops⟩
  · have hall : q'.allDeclared = q.allDeclared := by
      ext k
      exact exists_congr fun c => by rw [hsame]
    rw [Application.enforced,ha]
    exact ⟨hD.declared,fun k hk => hcovers k (hD.covered k hk),hall ▸ hD.settled⟩
  · obtain ⟨d,hkd⟩ := hk.declared
    rw [Application.enforced,ha]
    refine ⟨?_,?_,fun l hl => ?_⟩
    · rintro l (rfl|hl)
      · exact ⟨d,h.declared hkd⟩
      · exact hD.declared l hl
    · rintro l (rfl|hl)
      · obtain ⟨x,hx,hset,hn⟩ := hk.inside
        exact hcovers l ⟨out,x,hx,hset.kind,hn⟩
      · exact hcovers l (hD.covered l hl)
    · rcases hD.settled l hl with ⟨m,⟨b,hm⟩,halike⟩|⟨m,hm,halike⟩
      · rcases hr.declared_cases h.wellFormed hm with hm'|⟨k',ha',-,hlike⟩
        · exact .inl ⟨m,⟨b,hm'⟩,halike⟩
        · rw [ha] at ha'
          cases ha'
          refine .inr ⟨k,.inl rfl,.trans ⟨hlike,?_⟩ halike⟩
          exact h₀.noted ⟨d,h.declared hkd⟩ ⟨b,h.declared hm⟩ hlike
      · exact .inr ⟨m,.inr hm,halike⟩

/-- The entries present the matches of a query. -/
structure Presented (q₀ q : Query) (s : Store) (D : Set Constraint) (w : Workspace) : Prop where
  /-- The entry of every composite vertex presents what fits the items in its place. -/
  entry : ∀ {v x} {X : Rows × Rows}, q.item? v = some x → x.kind = .composite →
    w.Entry x.joinedName X.1 X.2 →
      Presents X (q₀.fitting s D (x.provenance.map Provenance.item) {n | n ∈ q.itemNames v})

/-- What is presented in an entry, whatever the entry. -/
theorem presented_iff : q₀.Presented q s D w ↔ q.Entries w fun v X =>
    Presents X (q₀.fitting s D ((q.itemMarker v).map Provenance.item) {n | n ∈ q.itemNames v}) := by
  constructor
  · intro hP v x X hx hk hX
    rw [itemMarker_of_some hx]
    exact hP.entry hx hk hX
  · intro hR
    refine ⟨fun {v x X} hx hk hX => ?_⟩
    rw [← itemMarker_of_some hx]
    exact hR v x X hx hk hX

/-- What a reduction leaves alone presents what it did. -/
theorem Lineal.presents_kept (h₀ : q₀.Definite) (h : q₀.Lineal q f) (hr : Reduction q rule a q' out)
    {X : Rows × Rows} (hx : q.item? v = some x) (hm : v ∉ a.items)
    (hX : Presents X (q₀.fitting s D ((q.itemMarker v).map Provenance.item)
      {n | n ∈ q.itemNames v})) :
    Presents X (q₀.fitting s (a.enforced D) ((q'.itemMarker v).map Provenance.item)
      {n | n ∈ q'.itemNames v}) := by
  have hc := hr.changes h.wellFormed
  rw [(hc.same hx hm).1,(hc.same hx hm).2.2]
  rcases hr.declared h.wellFormed with ⟨ha,-⟩|⟨k,-,-,-,-,ha,hk,-⟩
  · rw [Application.enforced,ha]
    exact hX
  · -- The names of a processed constraint are those of a vertex that takes part.
    obtain ⟨d,hkd⟩ := hk.declared
    obtain ⟨z,hz,-,hn⟩ := hk.inside
    obtain ⟨n,hnk⟩ := h₀.itemed ⟨d,h.declared hkd⟩
    rw [Application.enforced,ha,Option.elim_some,fitting_insert ⟨n,hnk,fun hnv => hm ?_⟩]
    · exact hX
    · rw [h.wellFormed.eq_of_name hnv (mem_itemNames.mpr ⟨z,hz,hn n hnk⟩)]
      exact by_contra fun hout => (hc.forth hz hout).1 rfl

/-- What a rule makes of matches that present what fits presents what fits. -/
theorem Lineal.presents_makes (h₀ : q₀.Definite) (h : q₀.Lineal q f) (hD : q₀.Accounts q D)
    (hr : Reduction q rule a q' out) (hs : s.Keyed) {marker : Option Provenance} {X : Rows × Rows}
    (hX : Makes q s (fun v X => Presents X (q₀.fitting s D ((q.itemMarker v).map Provenance.item)
      {n | n ∈ q.itemNames v})) a out rule marker X) :
    Presents X (q₀.fitting s (a.enforced D) (marker.map Provenance.item)
      {n | n ∈ q'.itemNames out}) := by
  have hc := hr.changes h.wellFormed
  have hcaption : ∀ {v}, a.items = [v] → {n | n ∈ q'.itemNames out} = {n | n ∈ q.itemNames v} :=
    fun hi => by
      ext n
      exact hc.itemNames_out.trans (by simp [hi])
  -- Matches of a vertex without marker present what fits its items.
  have hfits : ∀ {v} {X : Rows × Rows}, q.itemMarker v = none →
      Presents X (q₀.fitting s D ((q.itemMarker v).map Provenance.item) {n | n ∈ q.itemNames v}) →
        Presents X (q₀.fitting s D none {n | n ∈ q.itemNames v}) := fun hm hX => by
    rwa [hm] at hX
  have hsettled : ∀ {v x}, q.item? v = some x → Settled x → q.itemMarker v = none :=
    fun hx hset => (itemMarker_of_some hx).trans hset.provenance
  cases hX with
  | getVertex items settles live kind bounds =>
    rw [Application.enforced,settles,hcaption items]
    exact h.presents_vertex h₀ hD hs live kind bounds
  | absorbSelfLoop items settles live settled edge ended loop bounds given =>
    rw [Application.enforced,settles]
    exact h.presents_loop h₀ hD hr items loop ⟨_,live,settled⟩ edge ended bounds
      (hfits (hsettled live settled) given)
  | collapseEdge items settles live settled edge ended absorbed settled' near far ne together given
      given' =>
    rw [Application.enforced,settles]
    exact h.presents_join h₀ hD hr items near far ne ⟨_,live,settled⟩ ⟨_,absorbed,settled'⟩ together
      live edge ended (hfits (hsettled live settled) given) (hfits (hsettled absorbed settled') given') hs
  | absorbAnnotatedVertex items settles live settled edge ended absorbed bounds absorbs owed given
      given' plain =>
    rw [Application.enforced,settles,owed]
    obtain ⟨l,hlead,hlb,hln⟩ := h.limb_names h₀.regular absorbs
    exact h.presents_absorb h₀ hD hr items absorbs live edge absorbed ended bounds hlead hlb hln
      (hfits (hsettled live settled) given) (h.presents_limb h₀ hD hs absorbs absorbed hlead hln
        (fun hk => hfits absorbs.unmarked.2 (given' hk)) plain) hs
  | applyUpperLimit items settles live kind bounds marked limited given =>
    rw [Application.enforced,settles,hcaption items]
    rw [itemMarker_of_some live,marked] at given
    exact h.presents_limit h₀ ⟨⟨_,live,Item.isVertex_of_kind (.inr kind)⟩,
      (itemBounds_of_some live).trans bounds⟩ ((itemMarker_of_some live).trans marked) limited given
  | eliminateSubquery items settles live settled given =>
    rw [Application.enforced,settles,hcaption items]
    exact hfits (hsettled live settled) given
  | processConstraint items settles live settled declared inside named binary given =>
    rw [Application.enforced,settles,hcaption items]
    exact h.presents_constraint h₀ ⟨⟨_,live,Item.isVertex_of_kind (.inr settled.kind)⟩,
      (itemBounds_of_some live).trans settled.bounds⟩ declared inside named binary
        (hfits (hsettled live settled) given)

/-- A reduction that is replayed keeps what the entries present. -/
theorem Presented.step (h₀ : q₀.Definite) (h : q₀.Lineal q f) (hD : q₀.Accounts q D)
    (hr : Reduction q rule a q' out) (hs : s.Keyed) {result : ResultVertex}
    (hy : q'.item? out = some y) (hresult : result.joinedName = y.joinedName)
    (hapart : ∀ {j z}, q'.item? j = some z → z.kind = .composite →
      z.joinedName = y.joinedName → j = out)
    (hlimited : ∀ {i z m}, q.item? i = some z → z.provenance = some m → m.max.isSome = true)
    (hw : w.Sound) (ho : w.store.objects = s.objects) (hl : w.store.links = s.links)
    (hP : q₀.Presented q s D w) :
    Outcome (rule.replay ⟨q,a,result⟩) w (fun _ w' => q₀.Presented q' s (a.enforced D) w') True := by
  have hdecided : ∀ {c k}, k ∈ q.declared c → k.Decided := fun hk => h₀.decided ⟨_,h.declared hk⟩
  refine (Entries.step (S:=fun v X => Presents X (q₀.fitting s (a.enforced D)
    ((q'.itemMarker v).map Provenance.item) {n | n ∈ q'.itemNames v})) h.reducible hr hy hresult hapart
      hlimited hdecided hw ho hl (presented_iff.mp hP) (fun v x X hx hm hX => ?_)
        fun X hX => ?_).imp (fun _ _ => presented_iff.mpr) fun _ => trivial
  · exact h.presents_kept h₀ hr hx hm hX
  · rw [itemMarker_of_some hy]
    exact h.presents_makes h₀ hD hr hs hX

end Query

end GraphPattern
