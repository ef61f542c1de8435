import GraphPattern.Proofs.Matches.Binding
import Mathlib.Data.Set.Card

/-!
# Links between matches

The rows of found links are the links between what two matches hold under the names of an edge. Links
are counted by these rows: if a match holds one object under each of the names, then the number of
rows for a pair of matches is the number of links between them.
-/

namespace GraphPattern

open Table

namespace Store

/-- Objects and links stand in the order of their identifiers, each of them once. -/
structure Keyed (s : Store) : Prop where
  /-- The objects do. -/
  objects : s.objects.keys.Pairwise (· < ·)
  /-- The links do. -/
  links : s.links.keys.Pairwise (· < ·)

/-- The objects that satisfy a condition. -/
def having (s : Store) (condition : Option Condition) : Set Int :=
  {i | ∃ attributes, (i,attributes) ∈ s.objects.entries ∧ admits condition attributes = true}

/-- The links that satisfy a condition and lead from an object of the first set to one of the second
set, or the other way if the direction does not matter. -/
def linksBetween (s : Store) (condition : Option Condition) (directed : Bool) (A B : Set Int) :
    Set Int :=
  {l | ∃ link, (l,link) ∈ s.links.entries ∧ admits condition link.attributes = true ∧
    (link.source ∈ A ∧ link.target ∈ B ∨ directed = false ∧ link.target ∈ A ∧ link.source ∈ B)}

/-- A link joins something to something. -/
theorem nonempty_of_linksBetween {s : Store} {condition : Option Condition} {directed : Bool}
    {A B : Set Int} (h : (s.linksBetween condition directed A B).Nonempty) :
    A.Nonempty ∧ B.Nonempty := by
  obtain ⟨l,link,-,-,⟨ha,hb⟩|⟨-,ha,hb⟩⟩ := h
  · exact ⟨⟨_,ha⟩,⟨_,hb⟩⟩
  · exact ⟨⟨_,ha⟩,⟨_,hb⟩⟩

/-- The links that match an edge between the objects bound to the names of its ends. -/
def linksOf (s : Store) (y : Item) (ends : EdgeEnds) (c : Binding) : Set Int :=
  s.linksBetween y.condition ends.directed (c .object ends.sourceName) (c .object ends.targetName)

/-- The links that match an edge from one binding to another one, or the other way. -/
def linksAcross (s : Store) (y : Item) (ends : EdgeEnds) (forward : Bool) (c d : Binding) :
    Set Int :=
  s.linksBetween y.condition ends.directed ((if forward then c else d) .object ends.sourceName)
    ((if forward then d else c) .object ends.targetName)

end Store

/-- The edge allows the number of links, of which there is one at least. -/
def Item.Permits (y : Item) (L : Set Int) : Prop :=
  L.Nonempty ∧ ∀ a, y.bounds = some a → a.admits L.ncard = true

namespace OrderedMap

variable {κ : Type u} {α : Type v}

/-- An entry is found by its key. -/
theorem eq_of_mem_entries [LT κ] [Std.Irrefl fun a b : κ => a < b] {m : OrderedMap κ α}
    (h : m.keys.Pairwise (· < ·)) {k : κ} {a b : α} (ha : (k,a) ∈ m.entries)
    (hb : (k,b) ∈ m.entries) : a = b := by
  have hn : (m.entries.map Prod.fst).Nodup := by
    refine List.Pairwise.imp (fun {a b} hlt he => ?_) h
    subst he
    exact Std.Irrefl.irrefl _ hlt
  exact (Prod.ext_iff.mp (List.inj_on_of_nodup_map hn ha hb rfl)).2

end OrderedMap

/-- Counting the elements of a list counts those of a set, if it has each of them once. -/
theorem List.Nodup.length_eq_ncard {α β : Type} {l : List α} (h : l.Nodup) {f : α → β} {S : Set β}
    (hf : Set.BijOn f {a | a ∈ l} S) : l.length = S.ncard := by
  classical
  have himage : f '' ↑l.toFinset = S := by
    rw [List.coe_toFinset]
    exact hf.image_eq
  have hinj : Set.InjOn f ↑l.toFinset := by
    rw [List.coe_toFinset]
    exact hf.injOn
  rw [← himage,hinj.ncard_image,Set.ncard_coe_finset,List.toFinset_card_of_nodup h]

namespace Table

variable {L R : Rows} {lk rk : List Nat} {picks : List (JoinSide × Nat)} {l r : List Value}

/-- Joined rows differ if the picked cells tell which rows they come from. -/
theorem nodup_joinRows (hL : L.Nodup) (hR : R.Nodup)
    (h : ∀ l ∈ L, ∀ r ∈ R, ∀ l' ∈ L, ∀ r' ∈ R, agree lk rk l r = true → agree lk rk l' r' = true →
      pickCells picks l r = pickCells picks l' r' → l = l' ∧ r = r') :
    (joinRows lk rk picks L R).Nodup := by
  refine List.nodup_flatMap.mpr ⟨fun l hl => ?_,?_⟩
  · refine List.Nodup.map_on (fun r hr r' hr' he => ?_) (hR.filter _)
    obtain ⟨hr,ha⟩ := List.mem_filter.mp hr
    obtain ⟨hr',ha'⟩ := List.mem_filter.mp hr'
    exact (h l hl r hr l hl r' hr' ha ha' he).2
  · refine hL.imp_of_mem fun {l l'} hl hl' hne => ?_
    intro row hrow hrow'
    obtain ⟨r,hr,rfl⟩ := List.mem_map.mp hrow
    obtain ⟨r',hr',he⟩ := List.mem_map.mp hrow'
    obtain ⟨hr,ha⟩ := List.mem_filter.mp hr
    obtain ⟨hr',ha'⟩ := List.mem_filter.mp hr'
    exact hne (h l hl r hr l' hl' r' hr' ha ha' he.symm).1

end Table

namespace Matches

variable {s : Store} {X Z : Rows × Rows} {S T : Rows} {condition : Option Condition}
  {directed same : Bool} {a b : String} {g h l : Int} {row : List Value} {bounds : Annotation}

/-- The rows of one name. -/
theorem mem_named {rows : Rows} {r : MatchRow} :
    r.cells ∈ named a rows ↔ r.cells ∈ rows ∧ r.name = a := by
  rw [named,List.mem_filter,decide_eq_true_eq]
  exact and_congr_right fun _ => ⟨fun h => Value.string.inj h,fun h => congrArg Value.string h⟩

theorem mem_linkRows : row ∈ s.linkRows condition ↔ ∃ l link, (l,link) ∈ s.links.entries ∧
    Store.admits condition link.attributes = true ∧
      [.int l,.int link.source,.int link.target] = row := by
  rw [Store.linkRows,List.mem_map]
  constructor
  · rintro ⟨e,he,rfl⟩
    obtain ⟨he,ha⟩ := List.mem_filter.mp he
    exact ⟨e.1,e.2,he,ha,rfl⟩
  · rintro ⟨l,link,he,ha,rfl⟩
    exact ⟨(l,link),List.mem_filter.mpr ⟨he,ha⟩,rfl⟩

theorem nodup_linkRows (hs : s.Keyed) (condition : Option Condition) :
    (s.linkRows condition).Nodup := by
  have hn : s.links.entries.Nodup := .of_map _ (hs.links.imp ne_of_lt)
  refine (hn.filter _).map_on fun e he e' he' h => ?_
  obtain ⟨k,link⟩ := e
  obtain ⟨k',link'⟩ := e'
  cases (List.cons.inj h).1
  exact congrArg _ (OrderedMap.eq_of_mem_entries hs.links (List.mem_filter.mp he).1
    (List.mem_filter.mp he').1)

/-- Found links lead from an object of the first rows to an object of the second ones. -/
theorem mem_along {near far : Nat} (hS : ∀ row ∈ S, ∃ r : MatchRow, r.cells = row)
    (hT : ∀ row ∈ T, ∃ r : MatchRow, r.cells = row)
    (hn : near = 1 ∧ far = 2 ∨ near = 2 ∧ far = 1) :
    row ∈ along near far same (s.linkRows condition) S T ↔
      ∃ (r t : MatchRow) (l : Int) (link : StoredLink),
      (r.cells ∈ S ∧ t.cells ∈ T ∧ (l,link) ∈ s.links.entries ∧
        Store.admits condition link.attributes = true) ∧
      (cell [.int l,.int link.source,.int link.target] near = .int r.item ∧
        cell [.int l,.int link.source,.int link.target] far = .int t.item ∧
        (same = true → t.subgraph = r.subgraph)) ∧
      [.int r.subgraph,.int t.subgraph,.int l] = row := by
  have hnear : ∀ {l u v : Int}, ∃ i, cell [.int l,.int u,.int v] near = .int i := by
    intro l u v
    rcases hn with ⟨rfl,-⟩|⟨rfl,-⟩
    · exact ⟨u,rfl⟩
    · exact ⟨v,rfl⟩
  have hfar : ∀ {l u v : Int}, ∃ i, cell [.int l,.int u,.int v] far = .int i := by
    intro l u v
    rcases hn with ⟨-,rfl⟩|⟨-,rfl⟩
    · exact ⟨v,rfl⟩
    · exact ⟨u,rfl⟩
  rw [along]
  simp only [mem_joinRows]
  constructor
  · rintro ⟨_,⟨_,hr,_,hlink,ha,rfl⟩,_,ht,ha',rfl⟩
    obtain ⟨r,rfl⟩ := hS _ hr
    obtain ⟨t,rfl⟩ := hT _ ht
    obtain ⟨l,link,he,hc,rfl⟩ := mem_linkRows.mp hlink
    obtain ⟨-,ha⟩ := agree_iff.mp ha
    obtain ⟨-,ha'⟩ := agree_iff.mp ha'
    refine ⟨r,t,l,link,⟨hr,ht,he,hc⟩,?_⟩
    cases same with
    | false => exact ⟨⟨(List.cons.inj ha).1,(List.cons.inj ha').1.symm,
        fun h => absurd h Bool.false_ne_true⟩,rfl⟩
    | true =>
      obtain ⟨h₁,h₂⟩ := List.cons.inj ha'
      exact ⟨⟨(List.cons.inj ha).1,h₁.symm,fun _ => Value.int.inj (List.cons.inj h₂).1⟩,rfl⟩
  · rintro ⟨r,t,l,link,⟨hr,ht,he,hc⟩,⟨h₁,h₂,h₃⟩,rfl⟩
    refine ⟨_,⟨_,hr,_,mem_linkRows.mpr ⟨l,link,he,hc,rfl⟩,agree_iff.mpr ⟨?_,?_⟩,rfl⟩,_,ht,
      agree_iff.mpr ?_,rfl⟩
    · intro i hi
      cases List.mem_singleton.mp hi
      rfl
    · exact congrArg (fun v => [v]) h₁
    · have h₂' : cell (pickCells [(.left,1),(.right,0),(.right,far)] r.cells
          [.int l,.int link.source,.int link.target]) 2 = .int t.item := h₂
      cases same with
      | false =>
        refine ⟨fun i hi => ?_,?_⟩
        · cases List.mem_singleton.mp hi
          rw [h₂']
          rfl
        · exact congrArg (fun v => [v]) h₂'.symm
      | true =>
        refine ⟨fun i hi => ?_,?_⟩
        · rcases List.mem_pair.mp hi with rfl|rfl
          · rw [h₂']
            rfl
          · rfl
        · simp only [if_true,cells,List.map_cons,List.map_nil,h₂']
          exact congrArg (fun g => [Value.int t.item,.int g]) (h₃ rfl)

/-- Found links join what the matches hold under the names of the edge. -/
theorem mem_linked (hX : Tidy X) (hZ : Tidy Z) :
    row ∈ linked directed same (s.linkRows condition) (named a X.1) (named b Z.1) ↔ ∃ g h l,
      (l ∈ s.linksBetween condition directed (bound X g .object a) (bound Z h .object b) ∧
        (same = true → h = g)) ∧ [.int g,.int h,.int l] = row := by
  have hrows : ∀ {X : Rows × Rows}, Tidy X → ∀ {a}, ∀ row ∈ named a X.1,
      ∃ r : MatchRow, r.cells = row := fun hX a row hrow =>
    hX.cells .object row (List.mem_filter.mp hrow).1
  -- In both directions the rows are the links that join the objects in that direction.
  have hfound : ∀ {near far row}, near = 1 ∧ far = 2 ∨ near = 2 ∧ far = 1 →
      (row ∈ along near far same (s.linkRows condition) (named a X.1) (named b Z.1) ↔ ∃ g h l,
        ((∃ link, (l,link) ∈ s.links.entries ∧ Store.admits condition link.attributes = true ∧
          (near = 1 ∧ link.source ∈ bound X g .object a ∧ link.target ∈ bound Z h .object b ∨
            near = 2 ∧ link.target ∈ bound X g .object a ∧ link.source ∈ bound Z h .object b)) ∧
          (same = true → h = g)) ∧ [.int g,.int h,.int l] = row) := by
    intro near far row hn
    rw [mem_along (hrows hX) (hrows hZ) hn]
    constructor
    · rintro ⟨⟨i,g,n⟩,⟨j,h,m⟩,l,link,⟨hr,ht,he,hc⟩,⟨h₁,h₂,h₃⟩,rfl⟩
      obtain ⟨hr',rfl⟩ := mem_named.mp hr
      obtain ⟨ht',rfl⟩ := mem_named.mp ht
      refine ⟨g,h,l,⟨⟨link,he,hc,?_⟩,h₃⟩,rfl⟩
      rcases hn with ⟨rfl,rfl⟩|⟨rfl,rfl⟩
      · cases h₁
        cases h₂
        exact .inl ⟨rfl,hr',ht'⟩
      · cases h₁
        cases h₂
        exact .inr ⟨rfl,hr',ht'⟩
    · rintro ⟨g,h,l,⟨⟨link,he,hc,hends⟩,h₃⟩,rfl⟩
      rcases hn with ⟨rfl,rfl⟩|⟨rfl,rfl⟩
      · obtain ⟨-,hr,ht⟩ := hends.resolve_right fun h => absurd h.1 (by decide)
        exact ⟨⟨_,g,a⟩,⟨_,h,b⟩,l,link,⟨mem_named.mpr ⟨hr,rfl⟩,mem_named.mpr ⟨ht,rfl⟩,he,hc⟩,
          ⟨rfl,rfl,h₃⟩,rfl⟩
      · obtain ⟨-,hr,ht⟩ := hends.resolve_left fun h => absurd h.1 (by decide)
        exact ⟨⟨_,g,a⟩,⟨_,h,b⟩,l,link,⟨mem_named.mpr ⟨hr,rfl⟩,mem_named.mpr ⟨ht,rfl⟩,he,hc⟩,
          ⟨rfl,rfl,h₃⟩,rfl⟩
  have hforward : ∀ {row}, _ := fun {row} => @hfound 1 2 row (.inl ⟨rfl,rfl⟩)
  have hbackward : ∀ {row}, _ := fun {row} => @hfound 2 1 row (.inr ⟨rfl,rfl⟩)
  cases directed with
  | true =>
    rw [linked,if_pos rfl,hforward]
    simp [Store.linksBetween]
  | false =>
    rw [linked,if_neg Bool.false_ne_true,mem_distinctRows]
    constructor
    · rintro ⟨r,hr,rfl⟩
      rcases List.mem_append.mp hr with hr|hr
      · obtain ⟨g,h,l,⟨⟨link,he,hc,hends⟩,hs⟩,rfl⟩ := hforward.mp hr
        exact ⟨g,h,l,⟨⟨link,he,hc,.inl (hends.resolve_right fun h => absurd h.1 (by decide)).2⟩,hs⟩,rfl⟩
      · obtain ⟨r',hr',rfl⟩ := List.mem_map.mp hr
        obtain ⟨g,h,l,⟨⟨link,he,hc,hends⟩,hs⟩,rfl⟩ := hbackward.mp hr'
        exact ⟨g,h,l,⟨⟨link,he,hc,.inr
          ⟨rfl,(hends.resolve_left fun h => absurd h.1 (by decide)).2⟩⟩,hs⟩,rfl⟩
    · rintro ⟨g,h,l,⟨⟨link,he,hc,hends⟩,hs⟩,rfl⟩
      refine ⟨[.int g,.int h,.int l],List.mem_append.mpr ?_,rfl⟩
      rcases hends with hends|⟨-,hends⟩
      · exact .inl (hforward.mpr ⟨g,h,l,⟨⟨link,he,hc,.inl ⟨rfl,hends⟩⟩,hs⟩,rfl⟩)
      · exact .inr (List.mem_map.mpr ⟨[.int g,.int h,.int l],
          hbackward.mpr ⟨g,h,l,⟨⟨link,he,hc,.inr ⟨rfl,hends⟩⟩,hs⟩,rfl⟩,rfl⟩)

/-- No link is found twice between two matches. -/
theorem nodup_linked (hs : s.Keyed) (hX : Tidy X) (hZ : Tidy Z) :
    (linked directed same (s.linkRows condition) (named a X.1) (named b Z.1)).Nodup := by
  cases directed with
  | false =>
    rw [linked,if_neg Bool.false_ne_true]
    exact nodup_distinctRows _ _
  | true =>
    have hrows : ∀ {X : Rows × Rows}, Tidy X → ∀ {a}, ∀ row ∈ named a X.1,
        ∃ i g, [.int i,.int g,.string a] = row := fun hX a row hrow => by
      obtain ⟨⟨i,g,n⟩,rfl⟩ := hX.cells .object row (List.mem_filter.mp hrow).1
      obtain ⟨-,rfl⟩ := mem_named.mp hrow
      exact ⟨i,g,rfl⟩
    have hlink : ∀ {l u v u' v'}, [.int l,.int u,.int v] ∈ s.linkRows condition →
        [.int l,.int u',.int v'] ∈ s.linkRows condition → u = u' ∧ v = v' := by
      intro l u v u' v' h h'
      obtain ⟨k,link,he,-,heq⟩ := mem_linkRows.mp h
      obtain ⟨k',link',he',-,heq'⟩ := mem_linkRows.mp h'
      cases heq
      cases heq'
      cases OrderedMap.eq_of_mem_entries hs.links he he'
      exact ⟨rfl,rfl⟩
    -- The first join holds the match, the link and the object at the far end of the link.
    have hstart : ∀ row ∈ joinRows [0] [1] [(.left,1),(.right,0),(.right,2)] (named a X.1)
        (s.linkRows condition), ∃ i g l v, [.int i,.int g,.string a] ∈ named a X.1 ∧
          [.int l,.int i,.int v] ∈ s.linkRows condition ∧ [.int g,.int l,.int v] = row := by
      intro row hrow
      obtain ⟨r,hr,k,hk,hagree,rfl⟩ := mem_joinRows.mp hrow
      obtain ⟨i,g,rfl⟩ := hrows hX r hr
      obtain ⟨l,link,-,-,rfl⟩ := mem_linkRows.mp hk
      cases (agree_iff.mp hagree).2
      exact ⟨_,g,l,_,hr,hk,rfl⟩
    rw [linked,if_pos rfl,along]
    refine nodup_joinRows (nodup_joinRows ((hX.nodup .object).filter _) (nodup_linkRows hs _) ?_)
      ((hZ.nodup .object).filter _) ?_
    · intro r hr k hk r' hr' k' hk' hagree hagree' he
      obtain ⟨i,g,rfl⟩ := hrows hX r hr
      obtain ⟨i',g',rfl⟩ := hrows hX r' hr'
      obtain ⟨l,link,-,-,rfl⟩ := mem_linkRows.mp hk
      obtain ⟨l',link',-,-,rfl⟩ := mem_linkRows.mp hk'
      have hi : link.source = i := Value.int.inj (List.cons.inj (agree_iff.mp hagree).2).1
      have hi' : link'.source = i' := Value.int.inj (List.cons.inj (agree_iff.mp hagree').2).1
      obtain ⟨hg,hl,-⟩ : g = g' ∧ l = l' ∧ link.target = link'.target := by
        simpa [pickCells,cell] using he
      obtain ⟨hu,hv⟩ := hlink hk (hl ▸ hk')
      rw [← hi,← hi',hu,hv,hg,hl]
      exact ⟨rfl,rfl⟩
    · have hnear : ∀ {x t}, agree (if same = true then [2,0] else [2])
          (if same = true then [0,1] else [0]) x t = true → cell t 0 = cell x 2 := by
        intro x t h
        cases same with
        | false => exact (List.cons.inj (agree_iff.mp h).2).1
        | true => exact (List.cons.inj (agree_iff.mp h).2).1
      intro r hr t ht r' hr' t' ht' hagree hagree' he
      obtain ⟨i,g,l,v,-,hk,rfl⟩ := hstart r hr
      obtain ⟨i',g',l',v',-,hk',rfl⟩ := hstart r' hr'
      obtain ⟨j,h,rfl⟩ := hrows hZ t ht
      obtain ⟨j',h',rfl⟩ := hrows hZ t' ht'
      have hj : j = v := Value.int.inj (hnear hagree)
      have hj' : j' = v' := Value.int.inj (hnear hagree')
      obtain ⟨hg,hh,hl⟩ : g = g' ∧ h = h' ∧ l = l' := by
        simpa [pickCells,cell] using he
      obtain ⟨-,hv⟩ := hlink hk (hl ▸ hk')
      rw [hj,hj',hv,hg,hh,hl]
      exact ⟨rfl,rfl⟩

/-- As many links are found between two matches as there are. -/
theorem countP_linked (hs : s.Keyed) (hX : Tidy X) (hZ : Tidy Z) (g h : Int) :
    (linked directed false (s.linkRows condition) (named a X.1) (named b Z.1)).countP
        (fun r => cells r [0,1] = [.int g,.int h]) =
      (s.linksBetween condition directed (bound X g .object a) (bound Z h .object b)).ncard := by
  rw [List.countP_eq_length_filter]
  refine List.Nodup.length_eq_ncard (f:=fun row => ((cell row 2).asInt?).getD 0)
    ((nodup_linked hs hX hZ).filter _) ⟨fun row hrow => ?_,fun row hrow row' hrow' he => ?_,
      fun l hl => ?_⟩
  · obtain ⟨hrow,hkey⟩ := List.mem_filter.mp hrow
    obtain ⟨g',h',l,⟨hl,-⟩,rfl⟩ := (mem_linked hX hZ).mp hrow
    cases of_decide_eq_true hkey
    exact hl
  · obtain ⟨hrow,hkey⟩ := List.mem_filter.mp hrow
    obtain ⟨hrow',hkey'⟩ := List.mem_filter.mp hrow'
    obtain ⟨g₁,h₁,l,-,rfl⟩ := (mem_linked hX hZ).mp hrow
    obtain ⟨g₂,h₂,l',-,rfl⟩ := (mem_linked hX hZ).mp hrow'
    cases of_decide_eq_true hkey
    cases of_decide_eq_true hkey'
    rw [show l = l' from he]
  · exact ⟨[.int g,.int h,.int l],List.mem_filter.mpr
      ⟨(mem_linked hX hZ).mpr ⟨g,h,l,⟨hl,fun h => absurd h Bool.false_ne_true⟩,rfl⟩,decide_eq_true rfl⟩,rfl⟩

/-- Matches are paired that a number of links within bounds joins. -/
theorem mem_joined (hs : s.Keyed) (hX : Tidy X) (hZ : Tidy Z) :
    row ∈ joined bounds (linked directed false (s.linkRows condition) (named a X.1) (named b Z.1)) ↔
      ∃ g h, ((s.linksBetween condition directed (bound X g .object a)
          (bound Z h .object b)).Nonempty ∧
        bounds.admits (s.linksBetween condition directed (bound X g .object a)
          (bound Z h .object b)).ncard = true) ∧ [.int g,.int h] = row := by
  rw [joined,mem_distinctRows]
  constructor
  · rintro ⟨r,hr,rfl⟩
    obtain ⟨hr,hw⟩ := List.mem_filter.mp hr
    obtain ⟨f,hf,rfl⟩ := mem_countRows.mp hr
    obtain ⟨g,h,l,⟨hl,-⟩,rfl⟩ := (mem_linked hX hZ).mp hf
    refine ⟨g,h,⟨⟨l,hl⟩,?_⟩,rfl⟩
    rw [← countP_linked hs hX hZ,← within_eq_admits]
    exact hw
  · rintro ⟨g,h,⟨⟨l,hl⟩,ha⟩,rfl⟩
    rw [← countP_linked hs hX hZ,← within_eq_admits] at ha
    exact ⟨_,List.mem_filter.mpr ⟨mem_countRows.mpr
      ⟨_,(mem_linked hX hZ).mpr ⟨g,h,l,⟨hl,fun h => absurd h Bool.false_ne_true⟩,rfl⟩,rfl⟩,ha⟩,rfl⟩

end Matches

end GraphPattern
