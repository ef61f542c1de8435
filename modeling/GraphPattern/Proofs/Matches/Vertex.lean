import GraphPattern.Proofs.Matches.Rows

/-!
# Matches of one vertex

A plain vertex is matched by every object that satisfies its condition. A self-loop keeps the matches
that a link joins to themselves, and a marker those that hold no more objects than it allows.
-/

namespace GraphPattern

open Table

namespace Matches

/-! ## Plain vertices -/

variable {s : Store} {X : Rows × Rows} {F : Set Binding} {N : Set String} {y : Item} {ends : EdgeEnds}
  {condition : Option Condition} {name : String} {o : Int}

/-- The objects that satisfy a condition, in their order. -/
def idsHaving (s : Store) (condition : Option Condition) : List Int :=
  (s.objects.entries.filter fun e => Store.admits condition e.2).map Prod.fst

theorem mem_idsHaving : o ∈ idsHaving s condition ↔ o ∈ s.having condition := by
  constructor
  · intro ho
    obtain ⟨e,he,rfl⟩ := List.mem_map.mp ho
    exact ⟨e.2,List.mem_filter.mp he⟩
  · rintro ⟨attributes,ho,ha⟩
    exact List.mem_map.mpr ⟨_,List.mem_filter.mpr ⟨ho,ha⟩,rfl⟩

theorem nodup_idsHaving (hs : s.Keyed) : (idsHaving s condition).Nodup :=
  (hs.objects.imp ne_of_lt).sublist (List.filter_sublist.map _)

/-- The objects are numbered from one. -/
theorem mem_ofObjects {row : List Value} : row ∈ ofObjects s condition name ↔
    ∃ (i : Nat) (o : Int), (idsHaving s condition)[i]? = some o ∧
      MatchRow.cells ⟨o,i+1,name⟩ = row := by
  rw [ofObjects,labelled,numberedRows,Store.objectRows,List.mem_map]
  simp only [List.mem_mapIdx,List.getElem_map,List.length_map,idsHaving,List.getElem?_eq_some_iff]
  constructor
  · rintro ⟨_,⟨i,hi,rfl⟩,rfl⟩
    exact ⟨i,_,⟨hi,rfl⟩,rfl⟩
  · rintro ⟨i,_,⟨hi,rfl⟩,rfl⟩
    exact ⟨_,⟨i,hi,rfl⟩,rfl⟩

theorem nodup_ofObjects (hs : s.Keyed) : (ofObjects s condition name).Nodup := by
  have hfirst : (ofObjects s condition name).map (fun row => cell row 0) =
      (idsHaving s condition).map .int := by
    refine List.ext_getElem
      (by simp [ofObjects,labelled,numberedRows,Store.objectRows,idsHaving]) fun i hi hi' => ?_
    simp [ofObjects,labelled,numberedRows,Store.objectRows,idsHaving,cell]
  exact .of_map _ (hfirst ▸ (nodup_idsHaving hs).map fun _ _ => Value.int.inj)

/-- Every number stands for its object. -/
theorem describes_ofObjects (hs : s.Keyed) :
    Describes (ofObjects s condition name,[])
      {g | ∃ (i : Nat) (o : Int), (idsHaving s condition)[i]? = some o ∧ (i : Int)+1 = g}
      fun g => .of .object name
        {o | ∃ i : Nat, (idsHaving s condition)[i]? = some o ∧ (i : Int)+1 = g} := by
  refine describes_of_lists (fun row => mem_ofObjects.trans ⟨?_,?_⟩) (fun row => ⟨nofun,?_⟩)
    (nodup_ofObjects hs) List.nodup_nil ?_
  · rintro ⟨i,o,ho,rfl⟩
    exact ⟨o,_,name,⟨⟨i,o,ho,rfl⟩,⟨rfl,rfl⟩,i,ho,rfl⟩,rfl⟩
  · rintro ⟨o,_,_,⟨-,⟨-,rfl⟩,i,ho,rfl⟩,rfl⟩
    exact ⟨i,o,ho,rfl⟩
  · rintro ⟨o,g,n,⟨-,⟨hk,-⟩,-⟩,-⟩
    cases hk
  · rintro g ⟨i,o,ho,rfl⟩
    exact ⟨o,name,⟨rfl,rfl⟩,i,ho,rfl⟩

/-- A plain vertex has a match for every object that satisfies its condition. -/
theorem presents_ofObjects (hs : s.Keyed) (condition : Option Condition) (name : String) :
    Presents (ofObjects s condition name,[])
      {c | ∃ o ∈ s.having condition, c = .of .object name {o}} := by
  have hat : ∀ {i : Nat} {o : Int}, (idsHaving s condition)[i]? = some o →
      {p | ∃ j : Nat, (idsHaving s condition)[j]? = some p ∧ (j : Int)+1 = i+1} = {o} := by
    intro i o ho
    ext p
    constructor
    · rintro ⟨j,hp,hj⟩
      obtain rfl : j = i := by omega
      exact Option.some_inj.mp (hp.symm.trans ho)
    · rintro rfl
      exact ⟨i,ho,rfl⟩
  refine (describes_ofObjects hs).presents ⟨?_,?_,?_⟩
  · rintro _ ⟨i,o,ho,rfl⟩
    exact ⟨o,mem_idsHaving.mp (List.mem_of_getElem? ho),by simp only [hat ho]⟩
  · rintro _ ⟨i,o,ho,rfl⟩ _ ⟨j,p,hp,rfl⟩ he
    simp only [hat ho,hat hp] at he
    obtain rfl := Binding.of_singleton_injective he
    obtain ⟨hi,-⟩ := List.getElem?_eq_some_iff.mp ho
    rw [(List.getElem?_inj hi (nodup_idsHaving hs)).mp (ho.trans hp.symm)]
  · rintro _ ⟨o,ho,rfl⟩
    obtain ⟨i,hi⟩ := List.getElem?_of_mem (mem_idsHaving.mpr ho)
    exact ⟨_,⟨i,o,hi,rfl⟩,by simp only [hat hi]⟩

/-! ## Self-loops -/

/-- The links that join the matches of a vertex to themselves. -/
theorem mem_loops (hX : Proper X) {row : List Value} :
    row ∈ linked ends.directed true (s.linkRows y.condition) (named ends.sourceName X.1)
      (named ends.targetName X.1) ↔
        ∃ g l, l ∈ s.linksOf y ends (bound X g) ∧ [.int g,.int g,.int l] = row := by
  rw [mem_linked hX.tidy hX.tidy]
  constructor
  · rintro ⟨g,h,l,⟨hl,he⟩,rfl⟩
    cases he rfl
    exact ⟨_,l,hl,rfl⟩
  · rintro ⟨g,l,hl,rfl⟩
    exact ⟨g,g,l,⟨hl,fun _ => rfl⟩,rfl⟩

/-- The matches that a link joins to themselves are kept, and hold these links. -/
theorem describes_absorbSelfLoop (hX : Proper X)
    (hnew : ∀ {g i}, i ∉ bound X g .link y.joinedName) :
    Describes (Rule.AbsorbSelfLoop.result (s.linkRows y.condition) y ends X)
      {g | g ∈ numbers X ∧ (s.linksOf y ends (bound X g)).Nonempty}
      fun g => bound X g ⊔ .of .link y.joinedName (s.linksOf y ends (bound X g)) := by
  have hfound : ∀ {row}, row ∈ linked ends.directed true (s.linkRows y.condition)
      (named ends.sourceName X.1) (named ends.targetName X.1) ↔
        ∃ g l, l ∈ s.linksOf y ends (bound X g) ∧ [.int g,.int g,.int l] = row := mem_loops hX
  generalize hf : linked ends.directed true (s.linkRows y.condition) (named ends.sourceName X.1)
    (named ends.targetName X.1) = found at hfound
  have hkept : ∀ kind, Lists (kept (rowsOf X kind) (distinctRows [0] found)) kind
      {g | g ∈ numbers X ∧ (s.linksOf y ends (bound X g)).Nonempty} (bound X) := by
    refine fun kind => lists_kept hX fun {g} _ => ⟨?_,?_⟩
    · rintro ⟨r,hr,hg⟩
      obtain ⟨f,hf,rfl⟩ := mem_distinctRows.mp hr
      obtain ⟨g',l,hl,rfl⟩ := hfound.mp hf
      cases hg
      exact ⟨l,hl⟩
    · rintro ⟨l,hl⟩
      exact ⟨_,mem_distinctRows.mpr ⟨_,hfound.mpr ⟨g,l,hl,rfl⟩,rfl⟩,rfl⟩
  have hloops : Lists (labelled y.joinedName (distinctRows [2,0] found)) .link
      {g | g ∈ numbers X ∧ (s.linksOf y ends (bound X g)).Nonempty}
      fun g => .of .link y.joinedName (s.linksOf y ends (bound X g)) := by
    refine lists_labelled fun {row} => mem_distinctRows.trans ⟨?_,?_⟩
    · rintro ⟨f,hf,rfl⟩
      obtain ⟨g,l,hl,rfl⟩ := hfound.mp hf
      obtain ⟨i,hi⟩ := (Store.nonempty_of_linksBetween ⟨l,hl⟩).1
      exact ⟨g,l,⟨⟨⟨i,_,hi⟩,⟨l,hl⟩⟩,hl⟩,rfl⟩
    · rintro ⟨g,l,⟨-,hl⟩,rfl⟩
      exact ⟨_,hfound.mpr ⟨g,l,hl,rfl⟩,rfl⟩
  rw [Rule.AbsorbSelfLoop.result,hf,hloops.laid]
  refine describes_of_lists ((hkept .object).congr fun g => (Binding.sup_of_other (by decide)).symm)
    ((hkept .link).append hloops) (nodup_kept (hX.cells .object) (hX.nodup .object))
    ((hkept .link).nodup_append hloops (nodup_kept (hX.cells .link) (hX.nodup .link))
      (nodup_labelled (nodup_distinctRows _ _)) ?_) ?_
  · rintro g i n hi ⟨⟨-,rfl⟩,-⟩
    exact hnew hi
  · rintro g ⟨⟨i,n,hi⟩,-⟩
    exact ⟨i,n,.inl hi⟩

/-- A vertex that absorbs a self-loop keeps the matches that a link joins to themselves. -/
theorem presents_absorbSelfLoop (hX : Presents X F) (hN : ∀ c ∈ F, c.Within N)
    (hy : y.joinedName ∉ N) :
    Presents (Rule.AbsorbSelfLoop.result (s.linkRows y.condition) y ends X)
      {c | ∃ b ∈ F, (s.linksOf y ends b).Nonempty ∧
        c = b ⊔ .of .link y.joinedName (s.linksOf y ends b)} := by
  refine hX.of_describes (describes_absorbSelfLoop hX.toProper fun {g i} hi => ?_)
    fun b hb b' hb' he => ?_
  · exact hy (hX.within hN g .link _ ⟨i,hi⟩)
  · exact (Binding.sup_injective (hN b hb) (hN b' hb') (Binding.within_of _ (Set.mem_singleton _))
      (Binding.within_of _ (Set.mem_singleton _)) (Set.disjoint_singleton_right.mpr hy) he).1

/-! ## Upper limits -/

/-- The objects under a name, after the numbers of their matches. -/
theorem mem_instances (hX : Proper X) {item : String} {row : List Value} :
    row ∈ distinctRows [1,0] (named item X.1) ↔
      ∃ g i, i ∈ bound X g .object item ∧ [.int g,.int i] = row := by
  rw [mem_distinctRows]
  constructor
  · rintro ⟨r,hr,rfl⟩
    obtain ⟨⟨i,g,n⟩,rfl⟩ := hX.cells .object r (List.mem_filter.mp hr).1
    obtain ⟨hi,rfl⟩ := mem_named.mp hr
    exact ⟨g,i,hi,rfl⟩
  · rintro ⟨g,i,hi,rfl⟩
    exact ⟨_,mem_named.mpr ⟨hi,rfl⟩,rfl⟩

/-- They are counted for every match. -/
theorem countP_instances (hX : Proper X) (item : String) (g : Int) :
    (distinctRows [1,0] (named item X.1)).countP (fun r => cells r [0] = [.int g]) =
      (bound X g .object item).ncard := by
  rw [List.countP_eq_length_filter]
  refine List.Nodup.length_eq_ncard (f:=fun row => ((cell row 1).asInt?).getD 0)
    ((nodup_distinctRows _ _).filter _) ⟨fun row hrow => ?_,fun row hrow row' hrow' he => ?_,
      fun i hi => ?_⟩
  · obtain ⟨hrow,hkey⟩ := List.mem_filter.mp hrow
    obtain ⟨g',i,hi,rfl⟩ := (mem_instances hX).mp hrow
    cases of_decide_eq_true hkey
    exact hi
  · obtain ⟨hrow,hkey⟩ := List.mem_filter.mp hrow
    obtain ⟨hrow',hkey'⟩ := List.mem_filter.mp hrow'
    obtain ⟨g₁,i,-,rfl⟩ := (mem_instances hX).mp hrow
    obtain ⟨g₂,i',-,rfl⟩ := (mem_instances hX).mp hrow'
    cases of_decide_eq_true hkey
    cases of_decide_eq_true hkey'
    rw [show i = i' from he]
  · exact ⟨[.int g,.int i],List.mem_filter.mpr ⟨(mem_instances hX).mpr ⟨g,i,hi,rfl⟩,
      decide_eq_true rfl⟩,rfl⟩

/-- A match is dropped if its number stands among those that have too much. -/
theorem not_agree_excess (hX : Proper X) {item : String} {most : Nat} {r : MatchRow} :
    (∀ e ∈ (countRows [0] (distinctRows [1,0] (named item X.1))).filter fun row =>
      Comparison.gt.holds (cell row 1) (.int most), agree [1] [0] r.cells e = false) ↔
        (bound X r.subgraph .object item).ncard ≤ most := by
  have hexceeds : ∀ g : Int, Comparison.gt.holds (.int ((distinctRows [1,0] (named item X.1)).countP
      fun r => cells r [0] = [.int g])) (.int most) = true ↔
        most < (bound X g .object item).ncard := fun g => by
    rw [Comparison.gt_holds_int,decide_eq_true_eq,countP_instances hX,Int.ofNat_lt]
  rw [← not_iff_not,not_le]
  push Not
  constructor
  · rintro ⟨e,he,ha⟩
    obtain ⟨he,hgt⟩ := List.mem_filter.mp he
    obtain ⟨f,hf,rfl⟩ := mem_countRows.mp he
    obtain ⟨g,i,-,rfl⟩ := (mem_instances hX).mp hf
    rw [ne_eq,Bool.not_eq_false] at ha
    have hg : g = r.subgraph := Value.int.inj (List.cons.inj (agree_iff.mp ha).2).1
    exact hg ▸ (hexceeds g).mp hgt
  · intro hlt
    obtain ⟨j,hj⟩ := Set.nonempty_of_ncard_ne_zero (Nat.ne_of_gt (Nat.zero_lt_of_lt hlt))
    refine ⟨_,List.mem_filter.mpr ⟨mem_countRows.mpr ⟨_,(mem_instances hX).mpr ⟨_,j,hj,rfl⟩,rfl⟩,
      (hexceeds r.subgraph).mpr hlt⟩,?_⟩
    rw [ne_eq,Bool.not_eq_false]
    refine agree_iff.mpr ⟨fun i hi => ?_,rfl⟩
    cases List.mem_singleton.mp hi
    rfl

/-- A marker keeps the matches that hold no more than some objects under its name. -/
theorem describes_applyUpperLimit (hX : Proper X) (item : String) (most : Nat) :
    Describes (Rule.ApplyUpperLimit.result item most X)
      {g | g ∈ numbers X ∧ (bound X g .object item).ncard ≤ most} (bound X) := by
  have hkept : ∀ kind, Lists (antiJoinRows [1] [0] (rowsOf X kind)
      ((countRows [0] (distinctRows [1,0] (named item X.1))).filter fun row =>
        Comparison.gt.holds (cell row 1) (.int most))) kind
          {g | g ∈ numbers X ∧ (bound X g .object item).ncard ≤ most} (bound X) := by
    refine fun kind => lists_of_mem (fun row hrow => ?_) fun {i g n} => ?_
    · exact hX.cells kind row (mem_antiJoinRows.mp hrow).1
    · rw [mem_antiJoinRows,not_agree_excess hX]
      exact ⟨fun h => ⟨⟨hX.mem_numbers h.1,h.2⟩,h.1⟩,fun h => ⟨h.2,h.1.2⟩⟩
  exact describes_of_lists (hkept .object) (hkept .link) ((hX.nodup .object).filter _)
    ((hX.nodup .link).filter _) fun hg => hg.1

/-- Bindings with too many objects under the name are dropped. -/
theorem presents_applyUpperLimit (hX : Presents X F) (item : String) (most : Nat) :
    Presents (Rule.ApplyUpperLimit.result item most X)
      {c | c ∈ F ∧ (c .object item).ncard ≤ most} := by
  have h := hX.of_describes (p:=fun c => (c .object item).ncard ≤ most) (f:=id)
    (describes_applyUpperLimit hX.toProper item most) (Set.injOn_id F)
  simpa only [id,exists_eq_right_right'] using h

end Matches

end GraphPattern
