import GraphPattern.Proofs.Matches.Pattern

/-!
# Bindings that fit together

What the rules do to the bindings that fit some items: an object fits a plain vertex, and bindings
that fit two parts of a query and are joined by enough links fit both parts and the edge between
them. The names of a part are taken to be all that its items depend on, and to reach out of the
same subqueries as the parts do that are put together.
-/

namespace GraphPattern

namespace Query

variable {q : Query} {s : Store} {G G' : ContainerId → Set Binding} {owed : Option String}
  {D D' : Set Constraint} {N M : Set String} {b c : Binding} {e i : ItemId} {x y : Item}
  {ends : EdgeEnds} {t : Bool}

theorem among_union : q.Among (N ∪ M) i ↔ q.Among N i ∨ q.Among M i := by
  constructor
  · rintro ⟨n,hn,hN|hM⟩
    · exact .inl ⟨n,hn,hN⟩
    · exact .inr ⟨n,hn,hM⟩
  · rintro (h|h)
    · exact h.mono Set.subset_union_left
    · exact h.mono Set.subset_union_right

theorem Written.among_singleton (h : q.Written) (hx : q.item? e = some x) :
    q.Among {x.joinedName} i ↔ i = e := by
  constructor
  · rintro ⟨n,hn,hN⟩
    exact h.wellFormed.eq_of_name hn ((h.mem_itemNames hx).mpr hN)
  · rintro rfl
    exact ⟨_,(h.mem_itemNames hx).mpr rfl,rfl⟩

/-- A vertex admits the bindings that hold an object of its own, unless it is annotated. -/
theorem meets_of_vertex (hx : q.item? i = some x) (hv : x.isVertex = true)
    (hb : x.bounds = none → ∃ o ∈ s.having x.condition,
      b.Agrees (.of .object x.joinedName {o}) {x.joinedName}) : q.Meets s G owed i b where
  vertex x' hx' _ hbounds := by
    rw [hx] at hx'
    cases hx'
    exact hb hbounds
  edge y ends hy he _ := by
    rw [hx] at hy
    cases hy
    rw [(Item.not_isVertex_iff).mpr ⟨ends,he⟩] at hv
    cases hv
  limb y ends t l a hy he _ _ := by
    rw [hx] at hy
    cases hy
    rw [(Item.not_isVertex_iff).mpr ⟨ends,he⟩] at hv
    cases hv

/-- An edge at which nothing annotated hangs admits the bindings that hold its links. -/
theorem meets_of_edge (hy : q.item? e = some y) (he : y.ends? = some ends)
    (hcore : ∀ t l, ¬q.Leads e t l)
    (hb : b.Agrees (.of .link y.joinedName (s.linksOf y ends b)) {y.joinedName})
    (hp : y.Permits (s.linksOf y ends b)) : q.Meets s G owed e b where
  vertex x hx hv _ := by
    rw [hy] at hx
    cases hx
    rw [(Item.not_isVertex_iff).mpr ⟨ends,he⟩] at hv
    cases hv
  edge y' ends' hy' he' _ := by
    rw [hy] at hy'
    cases hy'
    rw [he] at he'
    cases he'
    exact ⟨hb,hp⟩
  limb _ _ t l _ _ _ hl _ := absurd hl (hcore t l)

/-- An edge at which something annotated hangs admits the bindings that hold that. -/
theorem meets_of_limb (ho : q.Orderly) (hc : q.Closed) (hy : q.item? e = some y)
    (he : y.ends? = some ends) {l : Limb} {a : Annotation} (hl : q.Leads e t l)
    (ha : l.bounds q = some a) (hb : Gathers s y ends t a (l.names q) (l.bindings q s G) owed b) :
    q.Meets s G owed e b where
  vertex x hx hv _ := by
    rw [hy] at hx
    cases hx
    rw [(Item.not_isVertex_iff).mpr ⟨ends,he⟩] at hv
    cases hv
  edge _ _ _ _ hcore := absurd hl (hcore t l)
  limb y' ends' t' l' a' hy' he' hl' ha' := by
    rw [hy] at hy'
    cases hy'
    rw [he] at he'
    cases he'
    obtain ⟨rfl,rfl⟩ := ho.leads_unique hc hl hl'
    rw [ha] at ha'
    cases ha'
    exact hb

theorem Conceals.mono {k : Constraint} (h : q.Conceals N k) (hNM : N ⊆ M) : q.Conceals M k := by
  obtain ⟨c,hc,hbeyond,hk⟩ := h
  exact ⟨c,hc,hbeyond.mono hNM,hk⟩

/-- Which upper bounds have been seen to matters for the edges at which something hangs. -/
theorem Fits.owe {owed' : Option String} (hb : q.Fits s G owed D N b)
    (hfew : ∀ i y ends t l, q.Among N i → ¬q.Hidden N i → q.item? i = some y →
      y.ends? = some ends → q.Leads i t l → owed = some (ends.nameAt t) →
        owed' = some (ends.nameAt t)) :
    q.Fits s G owed' D N b where
  within := hb.within
  item i hi hhid := by
    have hm := hb.item i hi hhid
    refine ⟨hm.vertex,hm.edge,fun y ends t l a hy he hl ha => ?_⟩
    have hg := hm.limb y ends t l a hy he hl ha
    exact ⟨hg.enough,fun hne => hg.few fun ho => hne (hfew i y ends t l hi hhid hy he hl ho),hg.held⟩
  constraint := hb.constraint

/-- A binding satisfies the constraints that state the same relations. -/
theorem Fits.settle (hb : q.Fits s G owed D N b)
    (hD : ∀ l ∈ D', (∀ n ∈ l.itemNames, n ∈ N) → ¬q.Conceals N l → ∃ k ∈ D, k.Alike l ∧
      (Comparison.ofKeyword? k.operator).any Comparison.isBinary = true) :
    q.Fits s G owed D' N b where
  within := hb.within
  item := hb.item
  constraint l hl hlN hcon := by
    obtain ⟨k,hk,hkl,hbinary⟩ := hD l hl hlN hcon
    have hnames := Constraint.itemNames_of_sameRelation hkl.1
    refine (hb.constraint k hk (fun n hn => hlN n (hnames ▸ hn)) fun ⟨c,hc,hbeyond,hkc⟩ =>
      hcon ⟨c,hc,hbeyond,fun n hn => hkc n (hnames ▸ hn)⟩).of_alike hbinary hkl

/-- What fits a subquery by itself matters only to edges that lead out of it. -/
theorem Fits.hang (hb : q.Fits s G owed D N b)
    (hG : ∀ i t c, q.Among N i → ¬q.Hidden N i → q.Leads i t (.subquery c) → G c = G' c) :
    q.Fits s G' owed D N b where
  within := hb.within
  item i hi hhid := by
    have hm := hb.item i hi hhid
    refine ⟨hm.vertex,hm.edge,fun y ends t l a hy he hl ha => ?_⟩
    have hg := hm.limb y ends t l a hy he hl ha
    cases l with
    | vertex u => exact hg
    | subquery c =>
      have hbindings : (Limb.subquery c).bindings q s G = (Limb.subquery c).bindings q s G' :=
        hG i t c hi hhid hl
      exact hbindings ▸ hg
  constraint := hb.constraint

/-- A constraint is one more to satisfy. -/
theorem fits_constraint {k : Constraint} (hk : ∀ n ∈ k.itemNames, n ∈ N) (hcon : ¬q.Conceals N k) :
    {b | q.Fits s G owed D N b ∧ k.HoldsIn s b} = {b | q.Fits s G owed (insert k D) N b} := by
  ext b
  constructor
  · rintro ⟨hb,hkb⟩
    refine ⟨hb.within,hb.item,fun l hl hlN hlcon => ?_⟩
    rcases hl with rfl|hl
    · exact hkb
    · exact hb.constraint l hl hlN hlcon
  · intro hb
    exact ⟨⟨hb.within,hb.item,fun l hl => hb.constraint l (.inr hl)⟩,
      hb.constraint k (.inl rfl) hk hcon⟩

/-- An upper bound that was owed is one more to keep. -/
theorem fits_limit (ho : q.Orderly) (hq : q.Written) (hc : q.Closed) {l : Limb} {a : Annotation}
    {max : Nat} (he : q.Among N e) (hvisible : ¬q.Hidden N e) (hy : q.item? e = some y)
    (hends : y.ends? = some ends) (hl : q.Leads e t l) (ha : l.bounds q = some a)
    (hmax : a.max = some max) :
    {b | q.Fits s G (some (ends.nameAt t)) D N b ∧ (b .object (ends.nameAt t)).ncard ≤ max} =
      {b | q.Fits s G none D N b} := by
  ext b
  constructor
  · rintro ⟨hb,hfew⟩
    refine ⟨hb.within,fun i hi hhid => ?_,hb.constraint⟩
    have hm := hb.item i hi hhid
    refine ⟨hm.vertex,hm.edge,fun y' ends' t' l' a' hy' he' hl' ha' => ?_⟩
    have hg := hm.limb y' ends' t' l' a' hy' he' hl' ha'
    refine ⟨hg.enough,fun _ max' hmax' => ?_,hg.held⟩
    by_cases hname : some (ends.nameAt t) = some (ends'.nameAt t')
    · -- The name is that of one vertex, at which something annotated hangs by one edge only.
      have hat := (ho.annotatedAt_iff hc).mpr ⟨l,hl⟩
      have hat' := (ho.annotatedAt_iff hc).mpr ⟨l',hl'⟩
      obtain ⟨v,hv⟩ := hc (isEdge_iff.mpr ⟨y,ends,hy,hends⟩) t
      obtain ⟨v',hv'⟩ := hc (isEdge_iff.mpr ⟨y',ends',hy',he'⟩) t'
      have hnv := hq.reducible.nameAt hy hends hv
      rw [Option.some.inj hname] at hnv
      have hvv := hq.wellFormed.eq_of_name hnv (hq.reducible.nameAt hy' he' hv')
      have hei := ho.single hat hat' hv (hvv ▸ hv')
      subst hei
      rw [hy] at hy'
      cases hy'
      rw [hends] at he'
      cases he'
      obtain ⟨rfl,rfl⟩ := ho.leads_unique hc hl hl'
      rw [ha] at ha'
      cases ha'
      rw [hmax] at hmax'
      cases hmax'
      exact hfew
    · exact hg.few hname max' hmax'
  · intro hb
    refine ⟨hb.owe fun _ _ _ _ _ _ _ _ _ _ howe => absurd howe (Option.some_ne_none _).symm,?_⟩
    exact ((hb.item e he hvisible).limb y ends t l a hy hends hl ha).few
      (Option.some_ne_none _).symm max hmax

section Written

variable (h : q.Written)

include h

/-- An object that satisfies its condition fits a plain vertex. -/
theorem fits_vertex (hx : q.item? e = some x) (hv : x.isVertex = true) (hb : x.bounds = none)
    (hD : ∀ k ∈ D, ¬∀ n ∈ k.itemNames, n = x.joinedName) :
    {b | q.Fits s G owed D {x.joinedName} b} =
      {d | ∃ o ∈ s.having x.condition, d = .of .object x.joinedName {o}} := by
  ext b
  constructor
  · intro hfit
    have hhid : ¬q.Hidden {x.joinedName} e := by
      rintro ⟨c,-,hec,i,hi,hic⟩
      exact hic ((h.among_singleton hx).mp hi ▸ hec)
    obtain ⟨o,ho,hag⟩ :=
      (hfit.item e ((h.among_singleton hx).mpr rfl) hhid).vertex x hx hv hb
    refine ⟨o,ho,funext fun kind => funext fun n => ?_⟩
    by_cases hn : n = x.joinedName
    · exact hag kind n hn
    · rw [hfit.within.eq_empty hn,Binding.of_ne hn]
  · rintro ⟨o,ho,rfl⟩
    refine ⟨Binding.within_of _ rfl,fun i hi _ => ?_,fun k hk hn _ => absurd hn (hD k hk)⟩
    obtain rfl := (h.among_singleton hx).mp hi
    exact meets_of_vertex hx hv fun _ => ⟨o,ho,fun _ _ _ => rfl⟩

variable (hclosed : q.Closed) (hy : q.item? e = some y) (he : y.ends? = some ends)
  (hN : q.Sealed N) (hyN : y.joinedName ∉ N)

include hclosed hy he hN hyN

/-- A binding fits a self-loop as well if it holds its links, of which there is one. -/
theorem fits_loop (hnames : ∀ t, ends.nameAt t ∈ N)
    (hbeyond : ∀ c, q.subqueryBounds c ≠ none → q.Beyond (N ∪ {y.joinedName}) c → q.Beyond N c)
    (hcore : ∀ t l, ¬q.Leads e t l) (hvisible : ¬q.Hidden (N ∪ {y.joinedName}) e)
    (hD : ∀ k ∈ D, (∀ n ∈ k.itemNames, n ∈ N ∪ {y.joinedName}) → ∀ n ∈ k.itemNames, n ∈ N)
    (hb : y.bounds = none) :
    {c | ∃ b, q.Fits s G owed D N b ∧ (s.linksOf y ends b).Nonempty ∧
      c = b ⊔ .of .link y.joinedName (s.linksOf y ends b)} =
    {b | q.Fits s G owed D (N ∪ {y.joinedName}) b} := by
  have hsub : N ⊆ N ∪ {y.joinedName} := Set.subset_union_left
  have hne_of : ∀ {n}, n ∈ N → n ≠ y.joinedName := fun hn he => hyN (he ▸ hn)
  have hpermits : ∀ {b}, (s.linksOf y ends b).Nonempty → y.Permits (s.linksOf y ends b) :=
    fun hne => ⟨hne,fun a ha => by
      rw [hb] at ha
      cases ha⟩
  ext b
  constructor
  · rintro ⟨c,hc,hne,rfl⟩
    have hag : c.Agrees (c ⊔ .of .link y.joinedName (s.linksOf y ends c)) N := fun kind n hn => by
      rw [Binding.sup_apply,Binding.of_ne (hne_of hn),Set.union_empty]
    have hlinks := Store.linksOf_congr (s:=s) (y:=y) fun t => hag .object _ (hnames t)
    refine ⟨(hc.within.mono hsub).sup (Binding.within_of _ (.inr rfl)),fun i hi hhid => ?_,
      fun k hk hkN hcon => ?_⟩
    · rcases among_union.mp hi with hi|hi
      · exact hc.meets h hclosed hN hsub hag hi hhid
      · obtain rfl := (h.among_singleton hy).mp hi
        refine meets_of_edge hy he hcore (fun kind n hn => ?_) (hlinks ▸ hpermits hne)
        rw [Set.mem_singleton_iff.mp hn,Binding.sup_apply,hc.within.eq_empty hyN,Set.empty_union,
          ← hlinks]
    · have hkN' := hD k hk hkN
      exact (hc.constraint k hk hkN' fun hcon' => hcon (hcon'.mono hsub)).congr (hag.mono hkN')
  · intro hfit
    have hmeets := hfit.item e (among_union.mpr (.inr ((h.among_singleton hy).mpr rfl))) hvisible
    obtain ⟨hag,hp⟩ := hmeets.edge y ends hy he hcore
    have hlinks := Store.linksOf_congr (s:=s) (y:=y) fun t =>
      b.on_agrees N .object _ (hnames t)
    refine ⟨b.on N,hfit.restrict h hclosed hsub hN hbeyond,hlinks ▸ hp.1,?_⟩
    funext kind n
    rw [Binding.sup_apply,hlinks]
    by_cases hn : n ∈ N
    · rw [Binding.on_apply hn,Binding.of_ne (hne_of hn),Set.union_empty]
    · rw [Binding.on_of_not_mem hn,Set.empty_union]
      by_cases hny : n = y.joinedName
      · exact hag kind n hny
      · rw [Binding.of_ne hny]
        exact hfit.within.eq_empty fun hmem => hmem.elim hn hny

/-- Bindings that fit two parts and that as many links join as the edge between them allows, and
these links, fit both parts and the edge. -/
theorem fits_join (hM : q.Sealed M) (hNM : Disjoint N M) (hyM : y.joinedName ∉ M)
    (hnear : ends.nameAt t ∈ N) (hfar : ends.nameAt (!t) ∈ M)
    (hbeyond : ∀ c, q.subqueryBounds c ≠ none → q.Beyond (N ∪ M ∪ {y.joinedName}) c →
      q.Beyond N c ∧ q.Beyond M c)
    (hcore : ∀ t l, ¬q.Leads e t l) (hvisible : ¬q.Hidden (N ∪ M ∪ {y.joinedName}) e)
    (hD : ∀ k ∈ D, (∀ n ∈ k.itemNames, n ∈ N ∪ M ∪ {y.joinedName}) →
      (∀ n ∈ k.itemNames, n ∈ N) ∨ ∀ n ∈ k.itemNames, n ∈ M) :
    {b | ∃ c, q.Fits s G owed D N c ∧ ∃ d, q.Fits s G owed D M d ∧
      y.Permits (s.linksAcross y ends t c d) ∧
        b = c ⊔ d ⊔ .of .link y.joinedName (s.linksAcross y ends t c d)} =
    {b | q.Fits s G owed D (N ∪ M ∪ {y.joinedName}) b} := by
  have hNK : N ⊆ N ∪ M ∪ {y.joinedName} := fun n hn => .inl (.inl hn)
  have hMK : M ⊆ N ∪ M ∪ {y.joinedName} := fun n hn => .inl (.inr hn)
  have hneN : ∀ {n}, n ∈ N → n ≠ y.joinedName := fun hn he => hyN (he ▸ hn)
  have hneM : ∀ {n}, n ∈ M → n ≠ y.joinedName := fun hn he => hyM (he ▸ hn)
  have hapart : ∀ {n}, n ∈ N → n ∉ M := fun hn hm => Set.disjoint_left.mp hNM hn hm
  -- Seen from either end, the links between the parts are those of the edge.
  have hlinks : ∀ {b c d : Binding}, c.Agrees b N → d.Agrees b M →
      s.linksAcross y ends t c d = s.linksOf y ends b := fun {b c d} hc hd => by
    have hcb := hc .object _ hnear
    have hdb := hd .object _ hfar
    cases t with
    | true =>
      change c .object ends.sourceName = b .object ends.sourceName at hcb
      change d .object ends.targetName = b .object ends.targetName at hdb
      simp only [Store.linksAcross,Store.linksOf,if_true,hcb,hdb]
    | false =>
      change c .object ends.targetName = b .object ends.targetName at hcb
      change d .object ends.sourceName = b .object ends.sourceName at hdb
      simp only [Store.linksAcross,Store.linksOf,Bool.false_eq_true,if_false,hcb,hdb]
  ext b
  constructor
  · rintro ⟨c,hc,d,hd,hp,rfl⟩
    generalize hL : s.linksAcross y ends t c d = L at hp
    have hcb : c.Agrees (c ⊔ d ⊔ .of .link y.joinedName L) N := fun kind n hn => by
      rw [Binding.sup_apply,Binding.sup_apply,hd.within.eq_empty (hapart hn),
        Binding.of_ne (hneN hn),Set.union_empty,Set.union_empty]
    have hdb : d.Agrees (c ⊔ d ⊔ .of .link y.joinedName L) M := fun kind n hn => by
      rw [Binding.sup_apply,Binding.sup_apply,hc.within.eq_empty fun hN => hapart hN hn,
        Binding.of_ne (hneM hn),Set.union_empty,Set.empty_union]
    have hLb := (hlinks hcb hdb).symm.trans hL
    refine ⟨((hc.within.mono hNK).sup (hd.within.mono hMK)).sup (Binding.within_of _ (.inr rfl)),
      fun i hi hhid => ?_,fun k hk hkK hcon => ?_⟩
    · rcases among_union.mp hi with hi|hi
      · rcases among_union.mp hi with hi|hi
        · exact hc.meets h hclosed hN hNK hcb hi hhid
        · exact hd.meets h hclosed hM hMK hdb hi hhid
      · obtain rfl := (h.among_singleton hy).mp hi
        refine meets_of_edge hy he hcore (fun kind n hn => ?_) (by rw [hLb]; exact hp)
        rw [Set.mem_singleton_iff.mp hn,hLb,Binding.sup_apply,Binding.sup_apply,
          hc.within.eq_empty hyN,hd.within.eq_empty hyM,Set.empty_union,Set.empty_union]
    · rcases hD k hk hkK with hkN|hkM
      · exact (hc.constraint k hk hkN fun hcon' => hcon (hcon'.mono hNK)).congr (hcb.mono hkN)
      · exact (hd.constraint k hk hkM fun hcon' => hcon (hcon'.mono hMK)).congr (hdb.mono hkM)
  · intro hfit
    have hmeets := hfit.item e (among_union.mpr (.inr ((h.among_singleton hy).mpr rfl))) hvisible
    obtain ⟨hag,hp⟩ := hmeets.edge y ends hy he hcore
    have hL := hlinks (b.on_agrees N) (b.on_agrees M)
    refine ⟨b.on N,hfit.restrict h hclosed hNK hN fun c hc hK => (hbeyond c hc hK).1,
      b.on M,hfit.restrict h hclosed hMK hM fun c hc hK => (hbeyond c hc hK).2,hL ▸ hp,?_⟩
    funext kind n
    rw [hL,Binding.sup_apply,Binding.sup_apply]
    by_cases hn : n ∈ N
    · rw [Binding.on_apply hn,Binding.on_of_not_mem (hapart hn),Binding.of_ne (hneN hn),
        Set.union_empty,Set.union_empty]
    · rw [Binding.on_of_not_mem hn,Set.empty_union]
      by_cases hm : n ∈ M
      · rw [Binding.on_apply hm,Binding.of_ne (hneM hm),Set.union_empty]
      · rw [Binding.on_of_not_mem hm,Set.empty_union]
        by_cases hny : n = y.joinedName
        · exact hag kind n hny
        · rw [Binding.of_ne hny]
          exact hfit.within.eq_empty fun hmem => hmem.elim (fun hmem => hmem.elim hn hm) hny

/-- A binding that fits a part and that enough links join to enough of what hangs on it, and all of
that, fit the part, the edge and what hangs there. Its upper bound may still be owed. -/
theorem fits_gather (ho : q.Orderly) {l : Limb} {a : Annotation} (hl : q.Leads e t l)
    (ha : l.bounds q = some a) (hNM : Disjoint N (l.names q))
    (hnear : ends.nameAt (!t) ∈ N) (hB : ∀ d ∈ l.bindings q s G, d.Within (l.names q))
    (hbeyond : ∀ c, q.subqueryBounds c ≠ none → q.Beyond (N ∪ l.names q ∪ {y.joinedName}) c →
      q.Beyond N c)
    (hM : ∀ i, q.Among (l.names q) i → ¬q.Hidden (N ∪ l.names q ∪ {y.joinedName}) i →
      ∀ b, q.Meets s G owed i b)
    (hvisible : ¬q.Hidden (N ∪ l.names q ∪ {y.joinedName}) e)
    (hD : ∀ k ∈ D, (∀ n ∈ k.itemNames, n ∈ N ∪ l.names q ∪ {y.joinedName}) →
      (∀ n ∈ k.itemNames, n ∈ N) ∨ q.Conceals (N ∪ l.names q ∪ {y.joinedName}) k)
    (howed : owed = if a.max.isSome then some (ends.nameAt t) else none) :
    {b | ∃ c, q.Fits s G none D N c ∧
      a.min.getD 0 ≤ (s.hanging y ends t (l.bindings q s G) c).ncard ∧
        b = c ⊔ s.gathered y ends t (l.bindings q s G) c} =
    {b | q.Fits s G owed D (N ∪ l.names q ∪ {y.joinedName}) b} := by
  generalize hK : N ∪ l.names q ∪ {y.joinedName} = K at *
  have hNK : N ⊆ K := fun n hn => hK ▸ .inl (.inl hn)
  have hMK : l.names q ∪ {y.joinedName} ⊆ K := by
    rw [← hK,Set.union_assoc]
    exact Set.subset_union_right
  have hfar := hl.nameAt_mem h.reducible hy he
  have happart : ∀ {n}, n ∈ N → n ∉ l.names q ∪ {y.joinedName} := by
    rintro n hn (hm|hm)
    · exact Set.disjoint_left.mp hNM hn hm
    · exact hyN (Set.mem_singleton_iff.mp hm ▸ hn)
  have hwithin : ∀ c, (s.gathered y ends t (l.bindings q s G) c).Within
      (l.names q ∪ {y.joinedName}) := fun c => Binding.within_gather fun d hd =>
    ((hB d hd.1).mono Set.subset_union_left).sup (Binding.within_of _ (.inr rfl))
  -- The bound that is owed is that of no edge in the part.
  have hother : ∀ i y' ends' t' l', q.Among N i → ¬q.Hidden N i → q.item? i = some y' →
      y'.ends? = some ends' → q.Leads i t' l' → owed ≠ some (ends'.nameAt t') :=
      fun i y' ends' t' l' hi hhid hy' he' _ hsome => by
    rw [howed] at hsome
    split at hsome
    · have hname := hN i hi hhid (h.nameAt_needs hclosed hy' he' t')
      rw [← Option.some.inj hsome] at hname
      exact Set.disjoint_left.mp hNM hname hfar
    · cases hsome
  ext b
  constructor
  · rintro ⟨c,hc,henough,rfl⟩
    generalize hg : s.gathered y ends t (l.bindings q s G) c = g
    have hgw : g.Within (l.names q ∪ {y.joinedName}) := hg ▸ hwithin c
    have hag : c.Agrees (c ⊔ g) N := fun kind n hn => by
      rw [Binding.sup_apply,hgw.eq_empty (happart hn),Set.union_empty]
    have hcb := hag .object _ hnear
    refine ⟨(hc.within.mono hNK).sup (hgw.mono hMK),fun i hi hhid => ?_,fun k hk hkK hcon => ?_⟩
    · rw [← hK] at hi
      rcases among_union.mp hi with hi|hi
      · rcases among_union.mp hi with hi|hi
        · exact (hc.owe fun _ _ _ _ _ _ _ _ _ _ howe =>
            absurd howe (Option.some_ne_none _).symm).meets h hclosed hN hNK hag hi hhid
        · exact hM i hi hhid _
      · obtain rfl := (h.among_singleton hy).mp hi
        refine meets_of_limb ho hclosed hy he hl ha ⟨?_,fun hne max hmax => ?_,fun kind n hn => ?_⟩
        · rwa [← Store.hanging_congr hcb]
        · rw [howed,hmax] at hne
          exact absurd rfl hne
        · rw [← Store.gathered_congr hcb,hg,Binding.sup_apply,
            hc.within.eq_empty fun hN => happart hN hn,Set.empty_union]
    · rcases hD k hk hkK with hkN|hcon'
      · exact (hc.constraint k hk hkN fun hcon' => hcon (hcon'.mono hNK)).congr (hag.mono hkN)
      · exact absurd hcon' hcon
  · intro hfit
    have hmeets := hfit.item e (hK ▸ among_union.mpr (.inr ((h.among_singleton hy).mpr rfl)))
      hvisible
    have hg := hmeets.limb y ends t l a hy he hl ha
    have hcb := b.on_agrees N .object _ hnear
    refine ⟨b.on N,(hfit.restrict h hclosed hNK hN hbeyond).owe
        fun i y' ends' t' l' hi hhid hy' he' hl' howe =>
          absurd howe (hother i y' ends' t' l' hi hhid hy' he' hl'),
      Store.hanging_congr hcb ▸ hg.enough,?_⟩
    funext kind n
    rw [Store.gathered_congr hcb,Binding.sup_apply]
    by_cases hn : n ∈ N
    · rw [Binding.on_apply hn,(hwithin b).eq_empty (happart hn),Set.union_empty]
    · rw [Binding.on_of_not_mem hn,Set.empty_union]
      by_cases hm : n ∈ l.names q ∪ {y.joinedName}
      · exact hg.held kind n hm
      · rw [(hwithin b).eq_empty hm]
        refine hfit.within.eq_empty fun hmem => ?_
        rw [← hK,Set.union_assoc] at hmem
        exact hmem.elim hn hm

end Written

end Query

end GraphPattern
