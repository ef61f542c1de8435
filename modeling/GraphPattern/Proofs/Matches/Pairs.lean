import GraphPattern.Proofs.Matches.Rows

/-!
# Matches of two vertices

Two vertices that an edge joins have a match for every pair of their matches that is joined by a
number of links which the edge allows. The match holds what both held, and the links.
-/

namespace GraphPattern

open Table

namespace Matches

variable {s : Store} {X Z : Rows × Rows} {rows P : Rows} {F G : Set Binding} {N M : Set String}
  {x y : Item} {ends : EdgeEnds} {n : String} {m : Nat}

theorem mem_numberedRows {row : List Value} : row ∈ numberedRows rows ↔
    ∃ i, ∃ h : i < rows.length, rows[i] ++ [.int (i+1)] = row := by
  rw [numberedRows,List.mem_mapIdx]

/-- Numbers that are given to pairs of matches stand for these pairs. -/
theorem exists_numbering {p : Int → Int → Prop} (hn : rows.Nodup)
    (hrows : ∀ {row}, row ∈ rows ↔ ∃ g h, p g h ∧ [.int g,.int h] = row) :
    ∃ (K : Set Int) (pair : Int → Int × Int), Set.BijOn pair K {q | p q.1 q.2} ∧
      ∀ {row}, row ∈ numberedRows rows ↔
        ∃ k ∈ K, [.int (pair k).1,.int (pair k).2,.int k] = row := by
  let number (row : List Value) (i : Nat) : Int := ((cell row i).asInt?).getD 0
  let pair (k : Int) : Int × Int :=
    (number (rows.getD (k-1).toNat []) 0,number (rows.getD (k-1).toNat []) 1)
  have hpair : ∀ {i g h}, (hi : i < rows.length) → [.int g,.int h] = rows[i] →
      pair (i+1) = (g,h) := by
    intro i g h hi he
    have hk : ((i : Int)+1-1).toNat = i := by omega
    simp only [pair,hk,List.getD_eq_getElem?_getD,List.getElem?_eq_getElem hi,Option.getD_some,← he]
    rfl
  have hat : ∀ {i}, (hi : i < rows.length) → ∃ g h, p g h ∧ [.int g,.int h] = rows[i] := fun hi =>
    hrows.mp (List.getElem_mem hi)
  refine ⟨{k | ∃ i < rows.length, (i : Int)+1 = k},pair,⟨?_,?_,?_⟩,fun {row} => ?_⟩
  · rintro _ ⟨i,hi,rfl⟩
    obtain ⟨g,h,hp,he⟩ := hat hi
    rw [hpair hi he]
    exact hp
  · rintro _ ⟨i,hi,rfl⟩ _ ⟨j,hj,rfl⟩ heq
    obtain ⟨g,h,-,he⟩ := hat hi
    obtain ⟨g',h',-,he'⟩ := hat hj
    rw [hpair hi he,hpair hj he'] at heq
    cases heq
    rw [(hn.getElem_inj_iff).mp (he.symm.trans he')]
  · rintro ⟨g,h⟩ hp
    obtain ⟨i,hi,he⟩ := List.getElem_of_mem (hrows.mpr ⟨g,h,hp,rfl⟩)
    exact ⟨_,⟨i,hi,rfl⟩,hpair hi he.symm⟩
  · rw [mem_numberedRows]
    constructor
    · rintro ⟨i,hi,rfl⟩
      obtain ⟨g,h,-,he⟩ := hat hi
      exact ⟨_,⟨i,hi,rfl⟩,by rw [hpair hi he,← he]; rfl⟩
    · rintro ⟨_,⟨i,hi,rfl⟩,rfl⟩
      obtain ⟨g,h,-,he⟩ := hat hi
      exact ⟨i,hi,by rw [hpair hi he,← he]; rfl⟩

section Pairs

variable {K : Set Int} {pair : Int → Int × Int} {side : Int × Int → Int} {kind : SourceKind}

/-- The rows of one end are copied to the new matches. -/
theorem lists_moved_pairs (side : Int × Int → Int) (hX : Tidy X)
    (hP : ∀ {row}, row ∈ P ↔ ∃ k ∈ K, [.int (pair k).1,.int (pair k).2,.int k] = row)
    (hm : ∀ {g h k}, cell [.int g,.int h,.int k] m = .int (side (g,h))) :
    Lists (moved m 2 (rowsOf X kind) P) kind K fun k => bound X (side (pair k)) := by
  intro row
  rw [mem_moved (hX.cells kind)]
  constructor
  · rintro ⟨⟨i,g,n⟩,hr,p,hp,hg,rfl⟩
    obtain ⟨k,hk,rfl⟩ := hP.mp hp
    rw [hm] at hg
    cases hg
    exact ⟨i,k,n,⟨hk,hr⟩,rfl⟩
  · rintro ⟨i,k,n,⟨hk,hi⟩,rfl⟩
    exact ⟨⟨i,side (pair k),n⟩,hi,_,hP.mpr ⟨k,hk,rfl⟩,hm,rfl⟩

theorem nodup_moved_pairs (hX : Tidy X) (hn : P.Nodup)
    (hP : ∀ {row}, row ∈ P ↔ ∃ k ∈ K, [.int (pair k).1,.int (pair k).2,.int k] = row) :
    (moved m 2 (rowsOf X kind) P).Nodup := by
  refine nodup_joinRows (hX.nodup kind) hn ?_
  intro r hr p hp r' hr' p' hp' ha ha' he
  obtain ⟨⟨i,g,n⟩,rfl⟩ := hX.cells kind r hr
  obtain ⟨⟨i',g',n'⟩,rfl⟩ := hX.cells kind r' hr'
  obtain ⟨k,-,rfl⟩ := hP.mp hp
  obtain ⟨k',-,rfl⟩ := hP.mp hp'
  obtain ⟨rfl,rfl,rfl⟩ : i = i' ∧ k = k' ∧ n = n' := by
    simpa [pickCells,cell,MatchRow.cells] using he
  have hg := (List.cons.inj (agree_iff.mp ha).2).1.symm.trans (List.cons.inj (agree_iff.mp ha').2).1
  have hg : g = g' := Value.int.inj hg
  rw [hg]
  exact ⟨rfl,rfl⟩

/-- The links between the ends of a pair are listed under the number of the pair. -/
theorem lists_numbered_links {found : Rows} {L : Int → Int → Set Int}
    (hfound : ∀ {row}, row ∈ found ↔ ∃ g h l, l ∈ L g h ∧ [.int g,.int h,.int l] = row)
    (hP : ∀ {row}, row ∈ P ↔ ∃ k ∈ K, [.int (pair k).1,.int (pair k).2,.int k] = row) :
    Lists (labelled n (distinctRows [0,1] (joinRows [0,1] [0,1] [(.left,2),(.right,2)] found P)))
      .link K fun k => .of .link n (L (pair k).1 (pair k).2) := by
  refine lists_labelled fun {row} => ?_
  simp only [mem_distinctRows,mem_joinRows]
  constructor
  · rintro ⟨_,⟨f,hf,p,hp,ha,rfl⟩,rfl⟩
    obtain ⟨g,h,l,hl,rfl⟩ := hfound.mp hf
    obtain ⟨k,hk,rfl⟩ := hP.mp hp
    obtain ⟨hg,hh⟩ : (pair k).1 = g ∧ (pair k).2 = h := by
      simpa [cells,cell] using (agree_iff.mp ha).2
    exact ⟨k,l,⟨hk,by rw [hg,hh]; exact hl⟩,rfl⟩
  · rintro ⟨k,l,⟨hk,hl⟩,rfl⟩
    refine ⟨_,⟨_,hfound.mpr ⟨_,_,l,hl,rfl⟩,_,hP.mpr ⟨k,hk,rfl⟩,agree_iff.mpr ⟨?_,rfl⟩,rfl⟩,rfl⟩
    intro i hi
    rcases List.mem_pair.mp hi with rfl|rfl <;> rfl

/-- Every pair becomes a match that holds what both held and the links between them. -/
theorem describes_collapseEdge {found : Rows} {L : Int → Int → Set Int} (hX : Tidy X)
    (hZ : Tidy Z) (hN : ∀ g, (bound X g).Within N) (hM : ∀ g, (bound Z g).Within M)
    (hNM : Disjoint N M) (hy : n ∉ N ∧ n ∉ M)
    (hfound : ∀ {row}, row ∈ found ↔ ∃ g h l, l ∈ L g h ∧ [.int g,.int h,.int l] = row)
    (hn : P.Nodup)
    (hP : ∀ {row}, row ∈ P ↔ ∃ k ∈ K, [.int (pair k).1,.int (pair k).2,.int k] = row)
    (hK : ∀ {k}, k ∈ K → (pair k).1 ∈ numbers X) :
    Describes (Rule.CollapseEdge.outcome n found P X Z) K fun k =>
      bound X (pair k).1 ⊔ bound Z (pair k).2 ⊔ .of .link n (L (pair k).1 (pair k).2) := by
  have hX' : ∀ kind, Lists (moved 0 2 (rowsOf X kind) P) kind K fun k => bound X (pair k).1 :=
    fun _ => lists_moved_pairs Prod.fst hX hP rfl
  have hZ' : ∀ kind, Lists (moved 1 2 (rowsOf Z kind) P) kind K fun k => bound Z (pair k).2 :=
    fun _ => lists_moved_pairs Prod.snd hZ hP rfl
  have hlinks := lists_numbered_links (n:=n) hfound hP
  -- The rows of both ends differ by their names, and from the links by the name of the edge.
  have hnodup : ∀ kind, (moved 0 2 (rowsOf X kind) P ++ moved 1 2 (rowsOf Z kind) P).Nodup :=
    fun kind => (hX' kind).nodup_append (hZ' kind) (nodup_moved_pairs hX hn hP)
      (nodup_moved_pairs hZ hn hP) fun hi hi' => Set.disjoint_left.mp hNM (hN _ _ _ ⟨_,hi⟩)
        (hM _ _ _ ⟨_,hi'⟩)
  have houtcome : Rule.CollapseEdge.outcome n found P X Z =
      (moved 0 2 (rowsOf X .object) P ++ moved 1 2 (rowsOf Z .object) P,
        labelled n (distinctRows [0,1] (joinRows [0,1] [0,1] [(.left,2),(.right,2)] found P)) ++
          (moved 0 2 (rowsOf X .link) P ++ moved 1 2 (rowsOf Z .link) P)) := by
    rw [← (hZ' .object).laid,← (hX' .link).laid,← (hZ' .link).laid]
    rfl
  have hends := (hX' .link).append (hZ' .link)
  rw [houtcome]
  refine describes_of_lists
    (((hX' .object).append (hZ' .object)).congr fun k => (Binding.sup_of_other (by decide)).symm)
    ((hlinks.append hends).congr fun k => by rw [Binding.sup_comm])
    (hnodup .object)
    (hlinks.nodup_append hends (nodup_labelled (nodup_distinctRows _ _)) (hnodup .link) ?_)
    fun {k} hk => ?_
  · rintro k i m ⟨⟨-,rfl⟩,-⟩ (hi|hi)
    · exact hy.1 (hN _ _ _ ⟨i,hi⟩)
    · exact hy.2 (hM _ _ _ ⟨i,hi⟩)
  · obtain ⟨i,m,hi⟩ := hK hk
    exact ⟨i,m,.inl (.inl hi)⟩

end Pairs

theorem nodup_numberedRows (h : rows.Nodup) : (numberedRows rows).Nodup := by
  have hback : (numberedRows rows).map List.dropLast = rows :=
    List.ext_getElem (by simp [numberedRows]) fun i hi hi' => by simp [numberedRows]
  exact .of_map _ (hback ▸ h)

/-- The pairs of matches that an edge joins. -/
theorem mem_pairs (hs : s.Keyed) (hX : Tidy X) (hZ : Tidy Z) (y : Item) (directed : Bool)
    (a b : String) :
    ∃ rows : Rows, rows.Nodup ∧ Rule.CollapseEdge.pairs y.bounds (linked directed false
        (s.linkRows y.condition) (named a X.1) (named b Z.1)) = numberedRows rows ∧
      ∀ {row}, row ∈ rows ↔ ∃ g h, y.Permits (s.linksBetween y.condition directed
        (bound X g .object a) (bound Z h .object b)) ∧ [.int g,.int h] = row := by
  unfold Rule.CollapseEdge.pairs
  cases hb : y.bounds with
  | some bounds =>
    refine ⟨_,nodup_distinctRows _ _,rfl,fun {row} => (mem_joined hs hX hZ).trans ?_⟩
    simp only [Item.Permits,hb,Option.some.injEq,forall_eq']
  | none =>
    refine ⟨_,nodup_distinctRows _ _,rfl,fun {row} => mem_distinctRows.trans ?_⟩
    simp only [Item.Permits,hb,reduceCtorEq,false_implies,implies_true,and_true]
    constructor
    · rintro ⟨f,hf,rfl⟩
      obtain ⟨g,h,l,⟨hl,-⟩,rfl⟩ := (mem_linked hX hZ).mp hf
      exact ⟨g,h,⟨l,hl⟩,rfl⟩
    · rintro ⟨g,h,⟨l,hl⟩,rfl⟩
      exact ⟨_,(mem_linked hX hZ).mpr ⟨g,h,l,⟨hl,fun h => absurd h Bool.false_ne_true⟩,rfl⟩,rfl⟩

/-- A result has one match for every pair of matches that an edge joins, and the match holds what both
held and the links between them. -/
def Couples (s : Store) (y : Item) (directed : Bool) (a b : String) (X Z X' : Rows × Rows)
    (n : String) : Prop :=
  let L (g h : Int) : Set Int := s.linksBetween y.condition directed (bound X g .object a)
    (bound Z h .object b)
  ∃ pair : Int → Int × Int, Set.BijOn pair (numbers X') {q | y.Permits (L q.1 q.2)} ∧
    Describes X' (numbers X') fun k =>
      bound X (pair k).1 ⊔ bound Z (pair k).2 ⊔ .of .link n (L (pair k).1 (pair k).2)

/-- Two vertices that an edge joins have a match for every pair of matches that enough links join. -/
theorem couples_outcome (hs : s.Keyed) (hX : Tidy X) (hZ : Tidy Z)
    (hN : ∀ g, (bound X g).Within N) (hM : ∀ g, (bound Z g).Within M) (hNM : Disjoint N M)
    (hy : n ∉ N ∧ n ∉ M) (directed : Bool) (a b : String) :
    Couples s y directed a b X Z (Rule.CollapseEdge.outcome n (linked directed false
      (s.linkRows y.condition) (named a X.1) (named b Z.1)) (Rule.CollapseEdge.pairs y.bounds
        (linked directed false (s.linkRows y.condition) (named a X.1) (named b Z.1))) X Z) n := by
  obtain ⟨rows,hn,hpairs,hrows⟩ := mem_pairs hs hX hZ y directed a b
  obtain ⟨K,pair,hK,hP⟩ := exists_numbering hn hrows
  rw [hpairs]
  let L (g h : Int) : Set Int := s.linksBetween y.condition directed (bound X g .object a)
    (bound Z h .object b)
  have hfound : ∀ {row}, row ∈ linked directed false (s.linkRows y.condition)
      (named a X.1) (named b Z.1) ↔ ∃ g h l, l ∈ L g h ∧ [.int g,.int h,.int l] = row := by
    intro row
    rw [mem_linked hX hZ]
    simp only [Bool.false_eq_true,false_implies,and_true]
    rfl
  have hnumber : ∀ {k}, k ∈ K → (pair k).1 ∈ numbers X := by
    intro k hk
    obtain ⟨i,hi⟩ := (Store.nonempty_of_linksBetween (hK.mapsTo hk).1).1
    exact ⟨i,_,hi⟩
  have hd := describes_collapseEdge hX hZ hN hM hNM hy hfound (nodup_numberedRows hn) hP hnumber
  have hnumbers : K = numbers _ := Set.ext fun _ => hd.mem_numbers.symm
  rw [hnumbers] at hK hd
  exact ⟨pair,hK,hd⟩

/-- If the bindings of the matches are known, so are those of the result. -/
theorem Couples.presents {X' : Rows × Rows} {directed : Bool} {a b : String}
    (hc : Couples s y directed a b X Z X' n) (hX : Presents X F) (hZ : Presents Z G)
    (hN : ∀ c ∈ F, c.Within N) (hM : ∀ c ∈ G, c.Within M) (hNM : Disjoint N M)
    (hy : n ∉ N ∧ n ∉ M) :
    Presents X' {e | ∃ c ∈ F, ∃ d ∈ G, y.Permits (s.linksBetween y.condition directed
      (c .object a) (d .object b)) ∧ e = c ⊔ d ⊔ .of .link n (s.linksBetween y.condition directed
        (c .object a) (d .object b))} := by
  obtain ⟨pair,hK,hd⟩ := hc
  have hends : ∀ {k}, k ∈ numbers X' → (pair k).1 ∈ numbers X ∧ (pair k).2 ∈ numbers Z := by
    intro k hk
    obtain ⟨⟨i,hi⟩,⟨j,hj⟩⟩ := Store.nonempty_of_linksBetween (hK.mapsTo hk).1
    exact ⟨⟨i,_,hi⟩,⟨j,_,hj⟩⟩
  have hnew : Disjoint (N ∪ M) {n} := by
    rw [Set.disjoint_singleton_right]
    exact not_or.mpr hy
  refine hd.presents ⟨fun k hk => ?_,fun k hk k' hk' he => ?_,?_⟩
  · exact ⟨_,hX.bijOn.mapsTo (hends hk).1,_,hZ.bijOn.mapsTo (hends hk).2,hK.mapsTo hk,rfl⟩
  · have hsup : ∀ k, (bound X (pair k).1 ⊔ bound Z (pair k).2).Within (N ∪ M) := fun k =>
      ((hX.within hN _).mono Set.subset_union_left).sup
        ((hZ.within hM _).mono Set.subset_union_right)
    obtain ⟨he,-⟩ := Binding.sup_injective (hsup k) (hsup k')
      (Binding.within_of _ (Set.mem_singleton n)) (Binding.within_of _ (Set.mem_singleton n)) hnew he
    obtain ⟨h₁,h₂⟩ := Binding.sup_injective (hX.within hN _) (hX.within hN _) (hZ.within hM _)
      (hZ.within hM _) hNM he
    exact hK.injOn hk hk' (Prod.ext (hX.injective (hends hk).1 (hends hk').1 h₁)
      (hZ.injective (hends hk).2 (hends hk').2 h₂))
  · rintro _ ⟨c,hc,d,hd',hp,rfl⟩
    obtain ⟨g,hg,rfl⟩ := hX.bijOn.surjOn hc
    obtain ⟨h,hh,rfl⟩ := hZ.bijOn.surjOn hd'
    obtain ⟨k,hk,hgh⟩ := hK.surjOn (show (g,h) ∈ {q | _} from hp)
    exact ⟨k,hk,by simp only [hgh]⟩

/-- The matches of two vertices that an edge joins. -/
theorem presents_collapseEdge (hs : s.Keyed) (hX : Presents X F) (hZ : Presents Z G)
    (hN : ∀ c ∈ F, c.Within N) (hM : ∀ c ∈ G, c.Within M) (hNM : Disjoint N M)
    (hy : y.joinedName ∉ N ∧ y.joinedName ∉ M) :
    Presents (Rule.CollapseEdge.result (s.linkRows y.condition) x y ends X Z)
      {e | ∃ c ∈ F, ∃ d ∈ G,
        y.Permits (s.linksAcross y ends (x.hasName ends.sourceName) c d) ∧
          e = c ⊔ d ⊔ .of .link y.joinedName
            (s.linksAcross y ends (x.hasName ends.sourceName) c d)} := by
  cases hn : x.hasName ends.sourceName with
  | true =>
    simp only [Rule.CollapseEdge.result,hn,if_true,Store.linksAcross]
    exact (couples_outcome hs hX.tidy hZ.tidy (hX.within hN) (hZ.within hM) hNM hy _ _ _).presents
      hX hZ hN hM hNM hy
  | false =>
    simp only [Rule.CollapseEdge.result,hn,Bool.false_eq_true,if_false,Store.linksAcross]
    have h := (couples_outcome (y:=y) hs hZ.tidy hX.tidy (hZ.within hM) (hX.within hN) hNM.symm
      hy.symm ends.directed ends.sourceName ends.targetName).presents hZ hX hM hN hNM.symm hy.symm
    refine cast (congrArg _ ?_) h
    ext e
    constructor
    · rintro ⟨d,hd,c,hc,hp,rfl⟩
      exact ⟨c,hc,d,hd,hp,by rw [Binding.sup_comm d c]⟩
    · rintro ⟨c,hc,d,hd,hp,rfl⟩
      exact ⟨d,hd,c,hc,hp,by rw [Binding.sup_comm d c]⟩

end Matches

end GraphPattern
