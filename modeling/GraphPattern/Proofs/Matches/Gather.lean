import GraphPattern.Proofs.Matches.Pattern

/-!
# Matches that gather others

A vertex that absorbs an annotated one keeps the matches to which enough matches of the annotated
vertex are joined, each by a number of links which the edge allows. Such a match holds what it held,
what these matches hold, and the links.
-/

namespace GraphPattern

open Table

namespace Matches

variable {s : Store} {X Z : Rows × Rows} {P : Rows} {F G : Set Binding} {N M : Set String}
  {x y z : Item} {ends : EdgeEnds} {g : Int}

section Gathered

variable {found : Rows} {L : Int → Int → Set Int} {least at₁ at₂ : Nat} {J : Int → Set Int}

/-- A pair of a kept match and an absorbed one, in the order of the ends of the edge. -/
def ordered (keptAt : Nat) (g h : Int) : List Value :=
  if keptAt = 0 then [.int g,.int h] else [.int h,.int g]

theorem cell_ordered (hat : at₁ = 0 ∧ at₂ = 1 ∨ at₁ = 1 ∧ at₂ = 0) (g h : Int) (rest : List Value) :
    cell (ordered at₁ g h ++ rest) at₁ = .int g ∧ cell (ordered at₁ g h ++ rest) at₂ = .int h ∧
      cells (ordered at₁ g h ++ rest) [0,1] = ordered at₁ g h ∧
        cell (ordered at₁ g h ++ rest) 2 = cell rest 0 := by
  rcases hat with ⟨rfl,rfl⟩|⟨rfl,rfl⟩
  · exact ⟨rfl,rfl,rfl,rfl⟩
  · exact ⟨rfl,rfl,rfl,rfl⟩

theorem cell_pair (hat : at₁ = 0 ∧ at₂ = 1 ∨ at₁ = 1 ∧ at₂ = 0) (g h : Int) :
    cell (ordered at₁ g h) at₁ = .int g ∧ cell (ordered at₁ g h) at₂ = .int h ∧
      cells (ordered at₁ g h) [0,1] = ordered at₁ g h := by
  have hcells := cell_ordered hat g h []
  rw [List.append_nil] at hcells
  exact ⟨hcells.1,hcells.2.1,hcells.2.2.1⟩

/-- Pairs are told apart. -/
theorem ordered_inj (hat : at₁ = 0 ∧ at₂ = 1 ∨ at₁ = 1 ∧ at₂ = 0) {g h g' h' : Int}
    (he : ordered at₁ g h = ordered at₁ g' h') : g = g' ∧ h = h' := by
  obtain ⟨h₁,h₂,-⟩ := cell_pair hat g h
  obtain ⟨h₁',h₂',-⟩ := cell_pair hat g' h'
  exact ⟨Value.int.inj (h₁.symm.trans ((congrArg (cell · at₁) he).trans h₁')),
    Value.int.inj (h₂.symm.trans ((congrArg (cell · at₂) he).trans h₂'))⟩

theorem isNull_ordered (hat : at₁ = 0 ∧ at₂ = 1 ∨ at₁ = 1 ∧ at₂ = 0) (g h : Int)
    (rest : List Value) :
    ∀ i ∈ [0,1], (cell (ordered at₁ g h ++ rest) i).isNull = false := by
  intro i hi
  rcases hat with ⟨rfl,rfl⟩|⟨rfl,rfl⟩ <;> rcases List.mem_pair.mp hi with rfl|rfl <;> rfl

/-- There are as many pairs of a match as there are others that are joined to it. -/
theorem countP_pairs (hat : at₁ = 0 ∧ at₂ = 1 ∨ at₁ = 1 ∧ at₂ = 0) (hn : P.Nodup)
    (hP : ∀ {row}, row ∈ P ↔ ∃ g h, h ∈ J g ∧ ordered at₁ g h = row) (g : Int) :
    P.countP (fun r => cells r [at₁] = [.int g]) = (J g).ncard := by
  -- A pair of the match is one of the rows that are counted.
  have hrow : ∀ {row}, row ∈ P.filter (fun r => cells r [at₁] = [.int g]) ↔
      ∃ h ∈ J g, ordered at₁ g h = row := by
    intro row
    rw [List.mem_filter,decide_eq_true_eq,hP]
    constructor
    · rintro ⟨⟨g',h,hh,rfl⟩,hkey⟩
      obtain rfl : g' = g :=
        Value.int.inj ((cell_pair hat g' h).1.symm.trans (List.cons.inj hkey).1)
      exact ⟨h,hh,rfl⟩
    · rintro ⟨h,hh,rfl⟩
      exact ⟨⟨g,h,hh,rfl⟩,congrArg (fun v => [v]) (cell_pair hat g h).1⟩
  have hother : ∀ h, ((cell (ordered at₁ g h) at₂).asInt?).getD 0 = h := fun h => by
    rw [(cell_pair hat g h).2.1]
    rfl
  rw [List.countP_eq_length_filter]
  refine List.Nodup.length_eq_ncard (f:=fun row => ((cell row at₂).asInt?).getD 0)
    (hn.filter _) ⟨fun row hmem => ?_,fun row hmem row' hmem' he => ?_,fun h hh => ?_⟩
  · obtain ⟨h,hh,rfl⟩ := hrow.mp hmem
    simpa only [hother] using hh
  · obtain ⟨h,-,rfl⟩ := hrow.mp hmem
    obtain ⟨h',-,rfl⟩ := hrow.mp hmem'
    simp only [hother] at he
    rw [he]
  · exact ⟨_,hrow.mpr ⟨h,hh,rfl⟩,hother h⟩

/-- The matches remain to which enough others are joined. -/
theorem mem_remaining (hX : Tidy X) (hat : at₁ = 0 ∧ at₂ = 1 ∨ at₁ = 1 ∧ at₂ = 0)
    (hn : P.Nodup) (hP : ∀ {row}, row ∈ P ↔ ∃ g h, h ∈ J g ∧ ordered at₁ g h = row)
    (hJ : ∀ {g h}, h ∈ J g → g ∈ numbers X) :
    (∃ r ∈ Rule.AbsorbAnnotatedVertex.remaining least at₁ P X.1, cell r 0 = .int g) ↔
      g ∈ numbers X ∧ least ≤ (J g).ncard := by
  -- The count of a match is compared with the bound.
  have henough : ∀ {g h}, Comparison.ge.holds (cell (cells (ordered at₁ g h) [at₁] ++
      [.int (P.countP fun r => cells r [at₁] = cells (ordered at₁ g h) [at₁])]) 1) (.int least) =
        true ↔ least ≤ (J g).ncard := fun {g h} => by
    rw [show cells (ordered at₁ g h) [at₁] = [.int g] from
      congrArg (fun v => [v]) (cell_pair hat g h).1,countP_pairs hat hn hP]
    change Comparison.ge.holds (.int (J g).ncard) (.int least) = true ↔ _
    rw [Comparison.ge_holds_int,decide_eq_true_eq,Int.ofNat_le]
  unfold Rule.AbsorbAnnotatedVertex.remaining
  by_cases hl : 0 < least
  · rw [if_pos hl]
    constructor
    · rintro ⟨r,hr,hg⟩
      obtain ⟨hr,hge⟩ := List.mem_filter.mp hr
      obtain ⟨f,hf,rfl⟩ := mem_countRows.mp hr
      obtain ⟨g',h,hh,rfl⟩ := hP.mp hf
      obtain rfl : g' = g := Value.int.inj ((cell_pair hat g' h).1.symm.trans hg)
      exact ⟨hJ hh,henough.mp hge⟩
    · rintro ⟨-,hge⟩
      obtain ⟨h,hh⟩ := Set.nonempty_of_ncard_ne_zero (Nat.ne_of_gt (Nat.lt_of_lt_of_le hl hge))
      exact ⟨_,List.mem_filter.mpr ⟨mem_countRows.mpr ⟨_,hP.mpr ⟨g,h,hh,rfl⟩,rfl⟩,henough.mpr hge⟩,
        (cell_pair hat g h).1⟩
  · rw [if_neg hl]
    have hzero : least ≤ (J g).ncard := by omega
    constructor
    · rintro ⟨r,hr,hg⟩
      obtain ⟨f,hf,rfl⟩ := mem_distinctRows.mp hr
      obtain ⟨⟨i,g',n⟩,rfl⟩ := hX.cells .object f hf
      cases hg
      exact ⟨⟨i,n,hf⟩,hzero⟩
    · rintro ⟨⟨i,n,hi⟩,-⟩
      exact ⟨_,mem_distinctRows.mpr ⟨_,hi,rfl⟩,rfl⟩

section Live

variable {R live : Rows} {S : Set Int}

/-- The pairs of the matches that remain. -/
theorem mem_live (hat : at₁ = 0 ∧ at₂ = 1 ∨ at₁ = 1 ∧ at₂ = 0)
    (hP : ∀ {row}, row ∈ P ↔ ∃ g h, h ∈ J g ∧ ordered at₁ g h = row)
    (hR : ∀ {g}, (∃ r ∈ R, cell r 0 = .int g) ↔ g ∈ S) {row : List Value} :
    row ∈ joinRows [at₁] [0] [(.left,0),(.left,1)] P R ↔
      ∃ g h, (g ∈ S ∧ h ∈ J g) ∧ ordered at₁ g h = row := by
  rw [mem_joinRows]
  constructor
  · rintro ⟨p,hp,r,hr,ha,rfl⟩
    obtain ⟨g,h,hh,rfl⟩ := hP.mp hp
    obtain ⟨hg,-,hcells⟩ := cell_pair hat g h
    exact ⟨g,h,⟨hR.mp ⟨r,hr,(List.cons.inj (agree_iff.mp ha).2).1.trans hg⟩,hh⟩,hcells.symm⟩
  · rintro ⟨g,h,⟨hg,hh⟩,rfl⟩
    obtain ⟨r,hr,hrg⟩ := hR.mpr hg
    obtain ⟨hpg,-,hcells⟩ := cell_pair hat g h
    refine ⟨_,hP.mpr ⟨g,h,hh,rfl⟩,r,hr,agree_iff.mpr ⟨fun i hi => ?_,?_⟩,hcells⟩
    · cases List.mem_singleton.mp hi
      rw [hpg]
      rfl
    · exact congrArg (fun v => [v]) (hrg.trans hpg.symm)

/-- The matches that are joined to those that remain are moved to them. -/
theorem lists_moved_live (hat : at₁ = 0 ∧ at₂ = 1 ∨ at₁ = 1 ∧ at₂ = 0) (hZ : Tidy Z)
    (hlive : ∀ {row}, row ∈ live ↔ ∃ g h, (g ∈ S ∧ h ∈ J g) ∧ ordered at₁ g h = row)
    (kind : SourceKind) :
    Lists (moved at₂ at₁ (rowsOf Z kind) live) kind S fun g => .gather (J g) (bound Z) := by
  refine lists_moved hZ (fun p hp => ?_) fun {g h} => ⟨?_,fun hg => ?_⟩
  · obtain ⟨g,h,-,rfl⟩ := hlive.mp hp
    exact ⟨g,(cell_pair hat g h).1⟩
  · rintro ⟨p,hp,hg,hh⟩
    obtain ⟨g',h',hmem,rfl⟩ := hlive.mp hp
    obtain ⟨hg',hh',-⟩ := cell_pair hat g' h'
    cases hg'.symm.trans hg
    cases hh'.symm.trans hh
    exact hmem
  · obtain ⟨hpg,hph,-⟩ := cell_pair hat g h
    exact ⟨_,hlive.mpr ⟨g,h,hg,rfl⟩,hpg,hph⟩

/-- The links to the matches that are joined to those that remain. -/
theorem lists_live_links (name : String) (hat : at₁ = 0 ∧ at₂ = 1 ∨ at₁ = 1 ∧ at₂ = 0)
    (hfound : ∀ {row}, row ∈ found ↔ ∃ g h l, l ∈ L g h ∧ ordered at₁ g h ++ [.int l] = row)
    (hlive : ∀ {row}, row ∈ live ↔ ∃ g h, (g ∈ S ∧ h ∈ J g) ∧ ordered at₁ g h = row) :
    Lists (labelled name (distinctRows [0,1]
      (joinRows [0,1] [0,1] [(.left,2),(.left,at₁)] found live))) .link S
        fun g => .of .link name {l | ∃ h ∈ J g, l ∈ L g h} := by
  refine lists_labelled fun {row} => ?_
  simp only [mem_distinctRows,mem_joinRows]
  constructor
  · rintro ⟨_,⟨f,hf,p,hp,ha,rfl⟩,rfl⟩
    obtain ⟨g,h,l,hl,rfl⟩ := hfound.mp hf
    obtain ⟨g',h',⟨hg,hh⟩,rfl⟩ := hlive.mp hp
    obtain ⟨h₁,-,h₃,h₄⟩ := cell_ordered hat g h [.int l]
    obtain ⟨rfl,rfl⟩ := ordered_inj hat
      ((cell_pair hat g' h').2.2.symm.trans ((agree_iff.mp ha).2.trans h₃))
    exact ⟨_,l,⟨hg,_,hh,hl⟩,(congrArg₂ (fun v w => [v,w]) h₄ h₁).symm⟩
  · rintro ⟨g,l,⟨hg,h,hh,hl⟩,rfl⟩
    obtain ⟨h₁,-,h₃,h₄⟩ := cell_ordered hat g h [.int l]
    refine ⟨_,⟨_,hfound.mpr ⟨g,h,l,hl,rfl⟩,_,hlive.mpr ⟨g,h,⟨hg,hh⟩,rfl⟩,
      agree_iff.mpr ⟨isNull_ordered hat g h [.int l],(cell_pair hat g h).2.2.trans h₃.symm⟩,rfl⟩,?_⟩
    exact congrArg₂ (fun v w => [v,w]) h₄ h₁

end Live

/-- What is joined to a match becomes a part of it, and so do the links. -/
theorem describes_absorbAnnotatedVertex {name : String} (hX : Tidy X) (hZ : Tidy Z)
    (hat : at₁ = 0 ∧ at₂ = 1 ∨ at₁ = 1 ∧ at₂ = 0) (hn : P.Nodup)
    (hP : ∀ {row}, row ∈ P ↔ ∃ g h, h ∈ J g ∧ ordered at₁ g h = row)
    (hfound : ∀ {row}, row ∈ found ↔ ∃ g h l, l ∈ L g h ∧ ordered at₁ g h ++ [.int l] = row)
    (hJ : ∀ {g h}, h ∈ J g → g ∈ numbers X) :
    Describes (Rule.AbsorbAnnotatedVertex.outcome name least at₁ at₂ found P X Z)
      {g | g ∈ numbers X ∧ least ≤ (J g).ncard} fun g =>
        bound X g ⊔ .gather (J g) fun h => bound Z h ⊔ .of .link name (L g h) := by
  have hremaining : ∀ {g}, (∃ r ∈ Rule.AbsorbAnnotatedVertex.remaining least at₁ P X.1,
      cell r 0 = .int g) ↔ g ∈ numbers X ∧ least ≤ (J g).ncard :=
    mem_remaining hX hat hn hP hJ
  generalize hr : Rule.AbsorbAnnotatedVertex.remaining least at₁ P X.1 = remaining at hremaining
  have hlive : ∀ {row}, row ∈ joinRows [at₁] [0] [(.left,0),(.left,1)] P remaining ↔
      ∃ g h, (g ∈ {g | g ∈ numbers X ∧ least ≤ (J g).ncard} ∧ h ∈ J g) ∧ ordered at₁ g h = row :=
    mem_live hat hP hremaining
  generalize hl : joinRows [at₁] [0] [(.left,0),(.left,1)] P remaining = live at hlive
  have hkept : ∀ kind, Lists (kept (rowsOf X kind) remaining) kind
      {g | g ∈ numbers X ∧ least ≤ (J g).ncard} (bound X) := fun _ =>
    lists_kept_tidy hX fun _ => hremaining
  have hmoved := lists_moved_live hat hZ hlive
  have hlinks := lists_live_links name hat hfound hlive
  have hgather : ∀ g, (Binding.gather (J g) fun h => bound Z h ⊔ .of .link name (L g h)) =
      .gather (J g) (bound Z) ⊔ .of .link name {l | ∃ h ∈ J g, l ∈ L g h} := fun g => by
    rw [Binding.gather_sup,Binding.gather_of]
  have houtcome : Rule.AbsorbAnnotatedVertex.outcome name least at₁ at₂ found P X Z =
      (distinctRows [0,1,2] (kept (rowsOf X .object) remaining ++
          moved at₂ at₁ (rowsOf Z .object) live),
        distinctRows [0,1,2] (kept (rowsOf X .link) remaining ++
          (moved at₂ at₁ (rowsOf Z .link) live ++ labelled name (distinctRows [0,1]
            (joinRows [0,1] [0,1] [(.left,2),(.left,at₁)] found live))))) := by
    rw [← (hmoved .object).laid,← (hmoved .link).laid,← hlinks.laid,← hl,← hr]
    rfl
  rw [houtcome]
  refine describes_of_lists
    (((hkept .object).append (hmoved .object)).distinct.congr fun g => ?_)
    (((hkept .link).append ((hmoved .link).append hlinks)).distinct.congr fun g => ?_)
    (nodup_distinctRows _ _) (nodup_distinctRows _ _) ?_
  · rw [hgather]
    funext n
    rw [Binding.sup_apply,Binding.sup_apply,Binding.sup_of_other (by decide)]
  · rw [hgather]
  · rintro g ⟨⟨i,n,hi⟩,-⟩
    exact ⟨i,n,.inl hi⟩

end Gathered

/-- The matches to which enough matches of an annotated vertex are joined, and what is joined to
them. -/
theorem describes_result (hs : s.Keyed) (hX : Tidy X) (hZ : Tidy Z) (x y z : Item)
    (ends : EdgeEnds) :
    Describes (Rule.AbsorbAnnotatedVertex.result (s.linkRows y.condition) x y z ends X Z)
      {g | g ∈ numbers X ∧ (z.bounds.bind Annotation.min).getD 0 ≤
        {h | y.Permits (s.linksAcross y ends (x.hasName ends.sourceName) (bound X g)
          (bound Z h))}.ncard} fun g => bound X g ⊔
            .gather {h | y.Permits (s.linksAcross y ends (x.hasName ends.sourceName) (bound X g)
              (bound Z h))} fun h => bound Z h ⊔ .of .link y.joinedName
                (s.linksAcross y ends (x.hasName ends.sourceName) (bound X g) (bound Z h)) := by
  have hpermits : ∀ L : Set Int, y.Permits L ↔
      L.Nonempty ∧ (y.bounds.getD .unbounded).admits L.ncard = true := by
    intro L
    rw [Item.Permits]
    cases y.bounds with
    | none => simp [ Annotation.unbounded, Annotation.admits]
    | some a => simp
  cases hn : x.hasName ends.sourceName with
  | true =>
    simp only [Rule.AbsorbAnnotatedVertex.result,hn,if_true]
    refine describes_absorbAnnotatedVertex hX hZ (.inl ⟨rfl,rfl⟩) (nodup_distinctRows _ _)
      (fun {row} => (mem_joined hs hX hZ).trans ?_) (fun {row} => (mem_linked hX hZ).trans ?_)
      fun {g h} hh => ?_
    · simp only [← hpermits]
      rfl
    · simp only [Bool.false_eq_true,false_implies,and_true]
      rfl
    · obtain ⟨i,hi⟩ := (Store.nonempty_of_linksBetween hh.1).1
      exact ⟨i,_,hi⟩
  | false =>
    simp only [Rule.AbsorbAnnotatedVertex.result,hn,Bool.false_eq_true,if_false]
    refine describes_absorbAnnotatedVertex hX hZ (.inr ⟨rfl,rfl⟩) (nodup_distinctRows _ _)
      (fun {row} => (mem_joined hs hZ hX).trans ?_) (fun {row} => (mem_linked hZ hX).trans ?_)
      fun {g h} hh => ?_
    · simp only [← hpermits]
      rw [exists_comm]
      rfl
    · simp only [Bool.false_eq_true,false_implies,and_true]
      rw [exists_comm]
      rfl
    · obtain ⟨i,hi⟩ := (Store.nonempty_of_linksBetween hh.1).2
      exact ⟨i,_,hi⟩

/-- The matches to which enough links lead from a binding stand for what they hold. -/
theorem bijOn_permits (hZ : Presents Z G) (y : Item) (ends : EdgeEnds) (forward : Bool)
    (c : Binding) : Set.BijOn (bound Z) {h | y.Permits (s.linksAcross y ends forward c (bound Z h))}
      {d | d ∈ G ∧ y.Permits (s.linksAcross y ends forward c d)} := by
  have hfar : ∀ {h}, y.Permits (s.linksAcross y ends forward c (bound Z h)) → h ∈ numbers Z := by
    intro h hp
    obtain ⟨⟨i,hi⟩,⟨j,hj⟩⟩ := Store.nonempty_of_linksBetween hp.1
    cases forward with
    | true => exact ⟨j,_,hj⟩
    | false => exact ⟨i,_,hi⟩
  refine ⟨fun h hh => ⟨hZ.bijOn.mapsTo (hfar hh),hh⟩,fun h hh h' hh' he =>
    hZ.injective (hfar hh) (hfar hh') he,?_⟩
  rintro d ⟨hd,hp⟩
  obtain ⟨h,-,rfl⟩ := hZ.bijOn.surjOn hd
  exact ⟨h,hp,rfl⟩

/-- There are as many of them. -/
theorem ncard_permits (hZ : Presents Z G) (y : Item) (ends : EdgeEnds) (forward : Bool)
    (c : Binding) : {h | y.Permits (s.linksAcross y ends forward c (bound Z h))}.ncard =
      {d | d ∈ G ∧ y.Permits (s.linksAcross y ends forward c d)}.ncard := by
  have hbij := bijOn_permits (s:=s) hZ y ends forward c
  rw [← hbij.image_eq,hbij.injOn.ncard_image]

/-- If the matches of the annotated vertex are known, a match remains that enough of them hang at, and
holds them and the links to them. -/
theorem describes_hanging {t : Bool} {b : Annotation} (hs : s.Keyed) (hX : Tidy X)
    (hZ : Presents Z G) (ht : x.hasName ends.sourceName = !t) (hb : z.bounds = some b) :
    Describes (Rule.AbsorbAnnotatedVertex.result (s.linkRows y.condition) x y z ends X Z)
      {g | g ∈ numbers X ∧ b.min.getD 0 ≤ (s.hanging y ends t G (bound X g)).ncard}
        fun g => bound X g ⊔ s.gathered y ends t G (bound X g) := by
  refine (describes_result hs hX hZ.tidy x y z ends).congr ?_ fun g _ => ?_
  · simp only [ht,hb,Option.bind_some,ncard_permits hZ]
    rfl
  · rw [ht]
    exact congrArg _ (Binding.gather_of_bijOn (bijOn_permits hZ y ends (!t) (bound X g))
      fun d => d ⊔ .of .link y.joinedName (s.linksAcross y ends (!t) (bound X g) d))

/-- The matches of a vertex that absorbs an annotated one. -/
theorem presents_absorbAnnotatedVertex (hs : s.Keyed) (hX : Presents X F) (hZ : Presents Z G)
    (hN : ∀ c ∈ F, c.Within N) (hM : ∀ c ∈ G, c.Within M) (hNM : Disjoint N M)
    (hy : y.joinedName ∉ N) :
    Presents (Rule.AbsorbAnnotatedVertex.result (s.linkRows y.condition) x y z ends X Z)
      {e | ∃ c ∈ F, (z.bounds.bind Annotation.min).getD 0 ≤
        {d | d ∈ G ∧ y.Permits (s.linksAcross y ends (x.hasName ends.sourceName) c d)}.ncard ∧
          e = c ⊔ .gather {d | d ∈ G ∧
            y.Permits (s.linksAcross y ends (x.hasName ends.sourceName) c d)} fun d =>
              d ⊔ .of .link y.joinedName
                (s.linksAcross y ends (x.hasName ends.sourceName) c d)} := by
  let across (c d : Binding) : Set Int := s.linksAcross y ends (x.hasName ends.sourceName) c d
  have hgather : ∀ c, Binding.gather {h | y.Permits (across c (bound Z h))}
      (fun h => bound Z h ⊔ .of .link y.joinedName (across c (bound Z h))) =
        .gather {d | d ∈ G ∧ y.Permits (across c d)}
          fun d => d ⊔ .of .link y.joinedName (across c d) := fun c =>
    Binding.gather_of_bijOn (bijOn_permits hZ y ends _ c)
      fun d => d ⊔ .of .link y.joinedName (across c d)
  have hd := describes_result hs hX.tidy hZ.tidy x y z ends
  refine hX.of_describes (p:=fun c => (z.bounds.bind Annotation.min).getD 0 ≤
      {d | d ∈ G ∧ y.Permits (across c d)}.ncard) (f:=fun c => c ⊔
        .gather {d | d ∈ G ∧ y.Permits (across c d)}
          fun d => d ⊔ .of .link y.joinedName (across c d)) ?_ ?_
  · simp only [across,← ncard_permits hZ,← hgather]
    exact hd
  · intro c hc c' hc' he
    have hrest : ∀ c, (Binding.gather {d | d ∈ G ∧ y.Permits (across c d)}
        fun d => d ⊔ .of .link y.joinedName (across c d)).Within (M ∪ {y.joinedName}) := fun c =>
      Binding.within_gather fun d hd => ((hM d hd.1).mono Set.subset_union_left).sup
        (Binding.within_of _ (.inr rfl))
    exact (Binding.sup_injective (hN c hc) (hN c' hc') (hrest c) (hrest c')
      (Set.disjoint_union_right.mpr ⟨hNM,Set.disjoint_singleton_right.mpr hy⟩) he).1

end Matches

end GraphPattern
