import GraphPattern.Proofs.Matches.Links

/-!
# Rows of bindings

Bindings of different names are put together and told apart again, and the rows of matches that are
kept or moved are those of the matches that they are kept or moved for. A result is described by the
numbers of its matches and by what each of them holds.
-/

namespace GraphPattern

open Table

namespace Binding

variable {c c' d d' : Binding} {N M : Set String} {kind : SourceKind} {n : String}

/-- The binding that binds nothing but one name. -/
def of (kind : SourceKind) (name : String) (S : Set Int) : Binding := fun k n =>
  {i | (k = kind ∧ n = name) ∧ i ∈ S}

/-- Two bindings are put together. -/
instance : Max Binding := ⟨fun c d kind n => c kind n ∪ d kind n⟩

/-- Nothing is bound to other names. -/
def Within (c : Binding) (N : Set String) : Prop := ∀ kind n, (c kind n).Nonempty → n ∈ N

/-- What some things bind together. -/
def gather {α : Type} (A : Set α) (f : α → Binding) : Binding := fun kind n =>
  {i | ∃ a ∈ A, i ∈ f a kind n}

theorem Within.mono (h : c.Within N) (hNM : N ⊆ M) : c.Within M := fun k n hn => hNM (h k n hn)

theorem Within.eq_empty (h : c.Within N) (hn : n ∉ N) : c kind n = ∅ :=
  Set.not_nonempty_iff_eq_empty.mp fun hne => hn (h kind n hne)

theorem within_of (S : Set Int) (hn : n ∈ N) : (of kind n S).Within N := by
  rintro k m ⟨i,⟨-,rfl⟩,-⟩
  exact hn

theorem Within.sup (hc : c.Within N) (hd : d.Within N) : (c ⊔ d).Within N := by
  rintro k n ⟨i,hi|hi⟩
  · exact hc k n ⟨i,hi⟩
  · exact hd k n ⟨i,hi⟩

theorem within_gather {α : Type} {A : Set α} {f : α → Binding} (h : ∀ a ∈ A, (f a).Within N) :
    (gather A f).Within N := by
  rintro k n ⟨i,a,ha,hi⟩
  exact h a ha k n ⟨i,hi⟩

/-- What is bound together does not depend on how it is listed. -/
theorem gather_of_bijOn {α β : Type} {A : Set α} {B : Set β} {e : α → β} (h : Set.BijOn e A B)
    (f : β → Binding) : gather A (fun a => f (e a)) = gather B f := by
  funext k n
  ext i
  constructor
  · rintro ⟨a,ha,hi⟩
    exact ⟨_,h.mapsTo ha,hi⟩
  · rintro ⟨b,hb,hi⟩
    obtain ⟨a,ha,rfl⟩ := h.surjOn hb
    exact ⟨a,ha,hi⟩

@[simp] theorem sup_apply : (c ⊔ d) kind n = c kind n ∪ d kind n := rfl

protected theorem sup_comm (c d : Binding) : c ⊔ d = d ⊔ c :=
  funext fun _ => funext fun _ => Set.union_comm _ _

theorem of_self (S : Set Int) : of kind n S kind n = S := by
  ext i
  exact ⟨fun h => h.2,fun h => ⟨⟨rfl,rfl⟩,h⟩⟩

theorem of_singleton_injective : Function.Injective fun o : Int => of kind n {o} := by
  intro o p hop
  have hkn := congrFun (congrFun hop kind) n
  simp only [of_self] at hkn
  exact Set.singleton_injective hkn

theorem of_other {S : Set Int} {k : SourceKind} {m : String} (hk : k ≠ kind) :
    of kind n S k m = ∅ :=
  Set.eq_empty_of_forall_notMem fun _ hi => hk hi.1.1

/-- What is bound to a name of one kind leaves the other kind alone. -/
theorem sup_of_other {S : Set Int} {k : SourceKind} (hk : k ≠ kind) : (c ⊔ of kind n S) k = c k := by
  funext m
  rw [sup_apply,of_other hk,Set.union_empty]

theorem gather_sup {α : Type} (A : Set α) (f g : α → Binding) :
    (gather A fun a => f a ⊔ g a) = gather A f ⊔ gather A g := by
  funext k m
  ext i
  constructor
  · rintro ⟨a,ha,hi|hi⟩
    · exact .inl ⟨a,ha,hi⟩
    · exact .inr ⟨a,ha,hi⟩
  · rintro (⟨a,ha,hi⟩|⟨a,ha,hi⟩)
    · exact ⟨a,ha,.inl hi⟩
    · exact ⟨a,ha,.inr hi⟩

theorem gather_of {α : Type} (A : Set α) (L : α → Set Int) :
    (gather A fun a => of kind n (L a)) = of kind n {i | ∃ a ∈ A, i ∈ L a} := by
  funext k m
  ext i
  constructor
  · rintro ⟨a,ha,hkm,hi⟩
    exact ⟨hkm,a,ha,hi⟩
  · rintro ⟨hkm,a,ha,hi⟩
    exact ⟨a,ha,hkm,hi⟩

/-- Bindings of different names can be told apart when they are put together. -/
theorem sup_injective (hc : c.Within N) (hc' : c'.Within N) (hd : d.Within M) (hd' : d'.Within M)
    (hNM : Disjoint N M) (h : c ⊔ d = c' ⊔ d') : c = c' ∧ d = d' := by
  have hat : ∀ k n, c k n ∪ d k n = c' k n ∪ d' k n := fun k n => congrFun (congrFun h k) n
  constructor
  · funext k n
    by_cases hn : n ∈ N
    · have hm : n ∉ M := Set.disjoint_left.mp hNM hn
      have hkn := hat k n
      rwa [hd.eq_empty hm,hd'.eq_empty hm,Set.union_empty,Set.union_empty] at hkn
    · rw [hc.eq_empty hn,hc'.eq_empty hn]
  · funext k n
    by_cases hm : n ∈ M
    · have hn : n ∉ N := Set.disjoint_right.mp hNM hm
      have hkn := hat k n
      rwa [hc.eq_empty hn,hc'.eq_empty hn,Set.empty_union,Set.empty_union] at hkn
    · rw [hd.eq_empty hm,hd'.eq_empty hm]

end Binding

namespace Matches

variable {X Z : Rows × Rows} {rows : Rows} {R P : Rows} {g h i : Int} {n : String} {m l : Nat}

/-! ## Rows -/

/-- The rows that are kept are those of the matches that remain. -/
theorem mem_kept {row : List Value} (hrows : ∀ row ∈ rows, ∃ r : MatchRow, r.cells = row) :
    row ∈ kept rows R ↔ row ∈ rows ∧ ∃ r ∈ R, cell r 0 = cell row 1 := by
  rw [kept,mem_joinRows]
  constructor
  · rintro ⟨r,hr,k,hk,ha,rfl⟩
    obtain ⟨r,rfl⟩ := hrows r hr
    exact ⟨hr,k,hk,(List.cons.inj (agree_iff.mp ha).2).1⟩
  · rintro ⟨hr,k,hk,he⟩
    obtain ⟨r,rfl⟩ := hrows row hr
    refine ⟨_,hr,k,hk,agree_iff.mpr ⟨fun i hi => ?_,congrArg (fun v => [v]) he⟩,rfl⟩
    cases List.mem_singleton.mp hi
    rfl

/-- The rows that are moved are copied from one match to another. -/
theorem mem_moved {row : List Value} (hrows : ∀ row ∈ rows, ∃ r : MatchRow, r.cells = row) :
    row ∈ moved m l rows P ↔ ∃ r : MatchRow, r.cells ∈ rows ∧ ∃ p ∈ P,
      cell p m = .int r.subgraph ∧ [.int r.item,cell p l,.string r.name] = row := by
  rw [moved,mem_joinRows]
  constructor
  · rintro ⟨r,hr,p,hp,ha,rfl⟩
    obtain ⟨r,rfl⟩ := hrows r hr
    exact ⟨r,hr,p,hp,(List.cons.inj (agree_iff.mp ha).2).1,rfl⟩
  · rintro ⟨r,hr,p,hp,he,rfl⟩
    refine ⟨_,hr,p,hp,agree_iff.mpr ⟨fun i hi => ?_,congrArg (fun v => [v]) he⟩,rfl⟩
    cases List.mem_singleton.mp hi
    rfl

/-- Rows of matches are laid out as they are. -/
theorem laid_eq (hrows : ∀ row ∈ rows, ∃ r : MatchRow, r.cells = row) : laid rows = rows := by
  refine (List.map_congr_left fun row hrow => ?_).trans (List.map_id rows)
  obtain ⟨r,rfl⟩ := hrows row hrow
  rfl

theorem mem_labelled {row : List Value} : row ∈ labelled n rows ↔
    ∃ r ∈ rows, r ++ [.string n] = row :=
  List.mem_map

theorem Proper.cells (h : Proper X) (kind : SourceKind) :
    ∀ row ∈ rowsOf X kind, ∃ r : MatchRow, r.cells = row := fun _ hrow =>
  (h.shaped hrow).imp fun _ hr => hr.1

/-- Joined with numbers that are given once, rows of matches are filtered: they stay in their order,
and as often as they occur. -/
theorem kept_eq_filter (rows : List MatchRow) (P : Rows) :
    kept (rows.map MatchRow.cells) (distinctRows [0] P) =
      (rows.filter fun r => P.any fun p => cell p 0 = .int r.subgraph).map MatchRow.cells := by
  -- At most one of the numbers agrees with a row.
  have hone : ∀ r : MatchRow, (distinctRows [0] P).filter (agree [1] [0] r.cells) =
      if P.any fun p => cell p 0 = .int r.subgraph then [[.int r.subgraph]] else [] := by
    intro r
    have hkey : ∀ key ∈ distinctRows [0] P,
        agree [1] [0] r.cells key = (key == [.int r.subgraph]) := fun key hkey => by
      obtain ⟨p,-,rfl⟩ := mem_distinctRows.mp hkey
      rw [Bool.eq_iff_iff,agree_iff,beq_iff_eq]
      refine and_iff_right fun i hi => ?_
      cases List.mem_singleton.mp hi
      rfl
    rw [List.filter_congr hkey,List.filter_beq,(nodup_distinctRows [0] P).count]
    have hmem : [.int r.subgraph] ∈ distinctRows [0] P ↔
        (P.any fun p => cell p 0 = .int r.subgraph) = true := by
      simp [mem_distinctRows,cells]
    by_cases h : (P.any fun p => cell p 0 = .int r.subgraph) = true
    · rw [if_pos (hmem.mpr h),if_pos h]
      rfl
    · rw [if_neg fun hm => h (hmem.mp hm),if_neg h]
      rfl
  induction rows with
  | nil => rfl
  | cons r rows ih =>
    rw [kept,joinRows] at ih ⊢
    rw [List.map_cons,List.flatMap_cons,ih,hone,List.filter_cons]
    split
    · rfl
    · rfl

/-- Rows that are kept for numbers that are given once occur once. -/
theorem nodup_kept (hrows : ∀ row ∈ rows, ∃ r : MatchRow, r.cells = row) (hn : rows.Nodup) :
    (kept rows (distinctRows [0] P)).Nodup := by
  obtain ⟨rows,rfl⟩ : rows ∈ Set.range (List.map MatchRow.cells) := by
    rw [Set.range_list_map]
    exact hrows
  rw [kept_eq_filter]
  exact ((hn.of_map _).filter _).map cells_injective

theorem nodup_labelled (h : rows.Nodup) : (labelled n rows).Nodup :=
  h.map fun _ _ => List.append_cancel_right

/-! ## Lists of what is held -/

/-- The rows are those of some numbers and of what each of them holds of one kind. -/
def Lists (rows : Rows) (kind : SourceKind) (S : Set Int) (f : Int → Binding) : Prop :=
  ∀ row, row ∈ rows ↔ ∃ i g n, (g ∈ S ∧ i ∈ f g kind n) ∧ MatchRow.cells ⟨i,g,n⟩ = row

section Lists

variable {rows' : Rows} {kind : SourceKind} {S : Set Int} {f f' : Int → Binding}

theorem lists_of_mem (hrows : ∀ row ∈ rows, ∃ r : MatchRow, r.cells = row)
    (h : ∀ {i g n}, MatchRow.cells ⟨i,g,n⟩ ∈ rows ↔ g ∈ S ∧ i ∈ f g kind n) :
    Lists rows kind S f := by
  intro row
  constructor
  · intro hrow
    obtain ⟨⟨i,g,n⟩,rfl⟩ := hrows row hrow
    exact ⟨i,g,n,h.mp hrow,rfl⟩
  · rintro ⟨i,g,n,hi,rfl⟩
    exact h.mpr hi

namespace Lists

theorem mem (h : Lists rows kind S f) :
    MatchRow.cells ⟨i,g,n⟩ ∈ rows ↔ g ∈ S ∧ i ∈ f g kind n := by
  rw [h]
  constructor
  · rintro ⟨i',g',n',hi,he⟩
    cases cells_injective he
    exact hi
  · exact fun hi => ⟨i,g,n,hi,rfl⟩

theorem shaped (h : Lists rows kind S f) : ∀ row ∈ rows, ∃ r : MatchRow, r.cells = row := by
  intro row hrow
  obtain ⟨i,g,n,-,rfl⟩ := (h row).mp hrow
  exact ⟨_,rfl⟩

theorem laid (h : Lists rows kind S f) : laid rows = rows := laid_eq h.shaped

theorem congr (h : Lists rows kind S f) (hf : ∀ g, f g kind = f' g kind) :
    Lists rows kind S f' :=
  lists_of_mem h.shaped fun {i g n} => by rw [h.mem,hf]

theorem append (h : Lists rows kind S f) (h' : Lists rows' kind S f') :
    Lists (rows ++ rows') kind S fun g => f g ⊔ f' g := by
  refine lists_of_mem (fun row hrow => ?_) fun {i g n} => ?_
  · rcases List.mem_append.mp hrow with hrow|hrow
    · exact h.shaped row hrow
    · exact h'.shaped row hrow
  · rw [List.mem_append,h.mem,h'.mem,← and_or_left]
    rfl

theorem distinct (h : Lists rows kind S f) : Lists (distinctRows [0,1,2] rows) kind S f := by
  intro row
  rw [mem_distinctRows,← h row,← List.mem_map]
  exact iff_of_eq (congrArg (row ∈ ·) h.laid)

/-- Rows of different things are different. -/
theorem nodup_append (h : Lists rows kind S f) (h' : Lists rows' kind S f') (hn : rows.Nodup)
    (hn' : rows'.Nodup) (hff : ∀ {g i n}, i ∈ f g kind n → i ∉ f' g kind n) :
    (rows ++ rows').Nodup := by
  refine List.nodup_append.mpr ⟨hn,hn',?_⟩
  rintro row hrow _ hrow' rfl
  obtain ⟨i,g,n,⟨-,hi⟩,rfl⟩ := (h row).mp hrow
  exact hff hi (h'.mem.mp hrow').2

end Lists

/-- The rows that are kept list what the matches that remain hold. -/
theorem lists_kept_tidy (hX : Tidy X)
    (hR : ∀ {i g n}, i ∈ bound X g kind n → ((∃ r ∈ R, cell r 0 = .int g) ↔ g ∈ S)) :
    Lists (kept (rowsOf X kind) R) kind S (bound X) := by
  refine lists_of_mem (fun row hrow => hX.cells kind row ((mem_kept (hX.cells kind)).mp hrow).1)
    fun {i g n} => ?_
  rw [mem_kept (hX.cells kind),and_comm]
  exact and_congr_left fun hi => hR hi

theorem lists_kept (hX : Proper X) {p : Int → Prop}
    (hR : ∀ {g}, g ∈ numbers X → ((∃ r ∈ R, cell r 0 = .int g) ↔ p g)) :
    Lists (kept (rowsOf X kind) R) kind {g | g ∈ numbers X ∧ p g} (bound X) :=
  lists_kept_tidy hX.tidy fun hi =>
    (hR (hX.mem_numbers hi)).trans (and_iff_right (hX.mem_numbers hi)).symm

/-- The rows that are moved list, for every new match, what the old matches hold that are paired with
it. -/
theorem lists_moved (hX : Tidy X) {A : Int → Set Int} (hl : ∀ p ∈ P, ∃ g, cell p l = .int g)
    (hP : ∀ {g h}, (∃ p ∈ P, cell p l = .int g ∧ cell p m = .int h) ↔ g ∈ S ∧ h ∈ A g) :
    Lists (moved m l (rowsOf X kind) P) kind S fun g => .gather (A g) (bound X) := by
  intro row
  rw [mem_moved (hX.cells kind)]
  constructor
  · rintro ⟨⟨i,h,n⟩,hi,p,hp,hh,rfl⟩
    obtain ⟨g,hg⟩ := hl p hp
    obtain ⟨hgS,hA⟩ := hP.mp ⟨p,hp,hg,hh⟩
    exact ⟨i,g,n,⟨hgS,h,hA,hi⟩,by rw [hg]; rfl⟩
  · rintro ⟨i,g,n,⟨hg,h,hA,hi⟩,rfl⟩
    obtain ⟨p,hp,hpg,hph⟩ := hP.mpr ⟨hg,hA⟩
    exact ⟨⟨i,h,n⟩,hi,p,hp,hph,by rw [hpg]; rfl⟩

/-- Rows under a name list what is bound to the name. -/
theorem lists_labelled {L : Int → Set Int}
    (h : ∀ {row}, row ∈ rows ↔ ∃ g i, (g ∈ S ∧ i ∈ L g) ∧ [.int i,.int g] = row) :
    Lists (labelled n rows) kind S fun g => .of kind n (L g) := by
  intro row
  rw [mem_labelled]
  constructor
  · rintro ⟨r,hr,rfl⟩
    obtain ⟨g,i,⟨hg,hi⟩,rfl⟩ := h.mp hr
    exact ⟨i,g,n,⟨hg,⟨rfl,rfl⟩,hi⟩,rfl⟩
  · rintro ⟨i,g,_,⟨hg,⟨-,rfl⟩,hi⟩,rfl⟩
    exact ⟨_,h.mpr ⟨g,i,⟨hg,hi⟩,rfl⟩,rfl⟩

end Lists

/-! ## Descriptions -/

/-- Rows that give some numbers what they are said to hold. -/
structure Describes (X : Rows × Rows) (S : Set Int) (f : Int → Binding) : Prop where
  /-- The rows are those of the numbers and of what they hold. -/
  rows : ∀ {kind row}, row ∈ rowsOf X kind ↔ ∃ i g n, (g ∈ S ∧ i ∈ f g kind n) ∧
    MatchRow.cells ⟨i,g,n⟩ = row
  /-- No row occurs twice. -/
  nodup : ∀ kind, (rowsOf X kind).Nodup
  /-- Every number holds an object. -/
  inhabited : ∀ {g}, g ∈ S → ∃ i n, i ∈ f g .object n

section Describes

variable {S : Set Int} {f : Int → Binding}

/-- A result is described by what its rows list. -/
theorem describes_of_lists {O L : Rows} (ho : Lists O .object S f) (hl : Lists L .link S f)
    (hno : O.Nodup) (hnl : L.Nodup) (hS : ∀ {g}, g ∈ S → ∃ i n, i ∈ f g .object n) :
    Describes (O,L) S f where
  rows {kind row} := by
    cases kind with
    | object => exact ho row
    | link => exact hl row
  nodup kind := by
    cases kind with
    | object => exact hno
    | link => exact hnl
  inhabited := hS

variable (hX : Describes X S f)

include hX

theorem Describes.mem_bound {kind : SourceKind} :
    i ∈ bound X g kind n ↔ g ∈ S ∧ i ∈ f g kind n :=
  Lists.mem fun _ => hX.rows

theorem Describes.mem_numbers : g ∈ numbers X ↔ g ∈ S := by
  constructor
  · rintro ⟨i,n,h⟩
    exact ((hX.mem_bound : i ∈ bound X g .object n ↔ _).mp h).1
  · intro hg
    obtain ⟨i,n,hi⟩ := hX.inhabited hg
    exact ⟨i,n,hX.mem_bound.mpr ⟨hg,hi⟩⟩

theorem Describes.bound_eq (hg : g ∈ S) : bound X g = f g := by
  funext kind n
  ext i
  exact hX.mem_bound.trans (and_iff_right hg)

/-- Numbers and what they hold may be written in another way. -/
theorem Describes.congr {S' : Set Int} {f' : Int → Binding} (hS : S = S')
    (hf : ∀ g ∈ S, f g = f' g) : Describes X S' f' where
  rows {kind row} := by
    rw [hX.rows,← hS]
    refine exists_congr fun i => exists_congr fun g => exists_congr fun n => and_congr_left fun _ =>
      and_congr_right fun hg => ?_
    rw [hf g hg]
  nodup := hX.nodup
  inhabited {g} hg := by
    rw [← hS] at hg
    rw [← hf g hg]
    exact hX.inhabited hg

theorem Describes.proper : Proper X where
  shaped hrow := by
    obtain ⟨i,g,n,⟨hg,-⟩,rfl⟩ := hX.rows.mp hrow
    exact ⟨_,rfl,hX.mem_numbers.mpr hg⟩
  nodup := hX.nodup

/-- The numbers of a description stand for what they hold. -/
theorem Describes.presents {F : Set Binding} (hf : Set.BijOn f S F) : Presents X F where
  toProper := hX.proper
  injective g hg g' hg' he := by
    have hg := hX.mem_numbers.mp hg
    have hg' := hX.mem_numbers.mp hg'
    rw [hX.bound_eq hg,hX.bound_eq hg'] at he
    exact hf.injOn hg hg' he
  image := by
    rw [← hf.image_eq]
    ext c
    constructor
    · rintro ⟨g,hg,rfl⟩
      have hg := hX.mem_numbers.mp hg
      exact ⟨g,hg,(hX.bound_eq hg).symm⟩
    · rintro ⟨g,hg,rfl⟩
      exact ⟨g,hX.mem_numbers.mpr hg,hX.bound_eq hg⟩

end Describes

theorem Presents.within {F : Set Binding} {N : Set String} (hX : Presents X F)
    (hN : ∀ c ∈ F, c.Within N) (g : Int) :
    (bound X g).Within N := by
  rintro kind n ⟨i,hi⟩
  exact hN _ (hX.bijOn.mapsTo (hX.mem_numbers hi)) kind n ⟨i,hi⟩

/-- The matches of a result that keep their numbers. -/
theorem Presents.of_describes {X' : Rows × Rows} {F : Set Binding} {p : Binding → Prop}
    {f : Binding → Binding} (hX : Presents X F)
    (hd : Describes X' {g | g ∈ numbers X ∧ p (bound X g)} fun g => f (bound X g))
    (hf : Set.InjOn f F) : Presents X' {c | ∃ b ∈ F, p b ∧ c = f b} := by
  refine hd.presents ⟨?_,?_,?_⟩
  · rintro g ⟨hg,hp⟩
    exact ⟨_,hX.bijOn.mapsTo hg,hp,rfl⟩
  · rintro g ⟨hg,-⟩ g' ⟨hg',-⟩ he
    exact hX.injective hg hg' (hf (hX.bijOn.mapsTo hg) (hX.bijOn.mapsTo hg') he)
  · rintro _ ⟨b,hb,hp,rfl⟩
    obtain ⟨g,hg,rfl⟩ := hX.bijOn.surjOn hb
    exact ⟨g,⟨hg,hp⟩,rfl⟩

end Matches

end GraphPattern
