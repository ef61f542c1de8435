import GraphPattern.Proofs.Query.Gauge
import GraphPattern.Proofs.Query.History
import Mathlib.Data.List.Perm.Basic
import Mathlib.Data.Prod.Lex
import Mathlib.Data.String.Basic

/-!
# What having the same content means

Contents list the items by their joined names and then by class, and items that agree in both by
number. So queries with the same content have items that can be paired off, and the converse holds
as long as joined names tell the items of a class apart. Constraints are listed by their texts, so
they are told apart exactly as far as their texts tell them apart.
-/

namespace GraphPattern

/-! ## Sorting -/

section Sorting

variable {α κ : Type} [LinearOrder κ] {f : α → κ} {before : α → α → Bool}

/-- Sorting keeps the elements of one key in the order in which they are given. -/
theorem filter_sortBy (hb : ∀ a b, before a b = true ↔ f a<f b) (k : κ) (xs : List α) :
    (sortBy before xs).filter (fun x => f x = k) = xs.filter fun x => f x = k := by
  have insert : ∀ (x : α) (ys : List α), (insertSorted before x ys).filter (fun x => f x = k) =
      (x :: ys).filter fun x => f x = k := by
    intro x ys
    induction ys with
    | nil => rfl
    | cons y ys ih =>
      rw [insertSorted]
      split
      · rename_i hlt
        have hne := ne_of_lt ((hb y x).mp hlt)
        rw [List.filter_cons,ih,List.filter_cons (x:=x),List.filter_cons (x:=x),List.filter_cons]
        -- At most one of the two has the key, so their order does not matter.
        by_cases hx : f x = k
        · have hy : f y ≠ k := fun hy => hne (hy.trans hx.symm)
          simp [hx,hy]
        · simp [hx]
      · rfl
  induction xs with
  | nil => rfl
  | cons x xs ih =>
    rw [sortBy,List.foldr_cons,insert,List.filter_cons,List.filter_cons]
    rw [sortBy] at ih
    rw [ih]

/-- The keys of a sorted list do not decrease. -/
theorem pairwise_sortBy (hb : ∀ a b, before a b = true ↔ f a<f b) (xs : List α) :
    (sortBy before xs).Pairwise fun a b => f a ≤ f b := by
  have insert : ∀ (x : α) {ys : List α}, ys.Pairwise (fun a b => f a ≤ f b) →
      (insertSorted before x ys).Pairwise fun a b => f a ≤ f b := by
    intro x ys hys
    induction ys with
    | nil => exact List.pairwise_singleton _ x
    | cons y ys ih =>
      obtain ⟨hy,hrest⟩ := List.pairwise_cons.mp hys
      rw [insertSorted]
      split
      · rename_i hlt
        refine List.pairwise_cons.mpr ⟨fun z hz => ?_,ih hrest⟩
        rcases List.mem_cons.mp ((insertSorted_perm before x ys).mem_iff.mp hz) with rfl|hz
        · exact le_of_lt ((hb y z).mp hlt)
        · exact hy z hz
      · rename_i hlt
        have hle : f x ≤ f y := not_lt.mp fun h => hlt ((hb y x).mpr h)
        refine List.pairwise_cons.mpr ⟨fun z hz => ?_,hys⟩
        rcases List.mem_cons.mp hz with rfl|hz
        · exact hle
        · exact le_trans hle (hy z hz)
  induction xs with
  | nil => exact List.Pairwise.nil
  | cons x xs ih => exact insert x ih

/-- Sorted lists are the same if for every key they have the same elements in the same order. -/
theorem eq_of_filter {xs ys : List α} (hx : xs.Pairwise fun a b => f a ≤ f b)
    (hy : ys.Pairwise fun a b => f a ≤ f b)
    (h : ∀ k, xs.filter (fun x => f x = k) = ys.filter fun x => f x = k) : xs = ys := by
  have hmem : ∀ {a : α} {as bs : List α},
      (∀ k, as.filter (fun x => f x = k) = bs.filter fun x => f x = k) → a ∈ as → a ∈ bs := by
    intro a as bs h ha
    have hfound : a ∈ as.filter fun x => f x = f a :=
      List.mem_filter.mpr ⟨ha,decide_eq_true rfl⟩
    rw [h] at hfound
    exact (List.mem_filter.mp hfound).1
  have hle : ∀ {a b : α} {as : List α}, (a :: as).Pairwise (fun a b => f a ≤ f b) →
      b ∈ a :: as → f a ≤ f b := by
    intro a b as hp hb
    rcases List.mem_cons.mp hb with rfl|hb
    · exact le_refl _
    · exact (List.pairwise_cons.mp hp).1 b hb
  induction xs generalizing ys with
  | nil =>
    cases ys with
    | nil => rfl
    | cons y ys => exact absurd (hmem (fun k => (h k).symm) List.mem_cons_self) List.not_mem_nil
  | cons x xs ih =>
    cases ys with
    | nil => exact absurd (hmem h List.mem_cons_self) List.not_mem_nil
    | cons y ys =>
      -- Both heads have the least key, so they are the first elements of that key.
      have hkey : f x = f y := le_antisymm
        (hle hx (hmem (fun k => (h k).symm) List.mem_cons_self)) (hle hy (hmem h List.mem_cons_self))
      have hhead := h (f x)
      rw [List.filter_cons_of_pos (by simp),List.filter_cons_of_pos (by simpa using hkey.symm)] at hhead
      obtain ⟨rfl,-⟩ := List.cons.inj hhead
      refine congrArg (x :: ·) (ih (List.pairwise_cons.mp hx).2 (List.pairwise_cons.mp hy).2 fun k => ?_)
      have hk := h k
      by_cases hxk : f x = k
      · rw [List.filter_cons_of_pos (by simpa using hxk),
          List.filter_cons_of_pos (by simpa using hxk)] at hk
        exact (List.cons.inj hk).2
      · rwa [List.filter_cons_of_neg (by simpa using hxk),
          List.filter_cons_of_neg (by simpa using hxk)] at hk

/-- Sorted lists of keys are the same if and only if they have the same elements as often. -/
theorem sortBy_eq_iff {before : κ → κ → Bool} (hb : ∀ a b, before a b = true ↔ a<b)
    {xs ys : List κ} : sortBy before xs = sortBy before ys ↔ xs.Perm ys := by
  constructor
  · intro h
    exact (sortBy_perm before xs).symm.trans (h ▸ sortBy_perm before ys)
  · intro h
    exact (((sortBy_perm before xs).trans h).trans (sortBy_perm before ys).symm).eq_of_pairwise
      (fun _ _ _ _ => le_antisymm) (pairwise_sortBy (f:=id) hb xs) (pairwise_sortBy (f:=id) hb ys)

end Sorting

/-- Two lists have the same images as often as each other if and only if the elements of the first
can be paired off with those of the second, each with one of the same image. -/
theorem map_perm_map_iff {α β : Type} {f : α → β} {xs ys : List α} :
    (xs.map f).Perm (ys.map f) ↔ ∃ zs, zs.Perm ys ∧ List.Forall₂ (fun x z => f x = f z) xs zs := by
  constructor
  · intro h
    have hpair : Relation.Comp List.Perm (List.Forall₂ fun b y => b = f y) (xs.map f) ys := by
      refine ⟨ys.map f,h,List.forall₂_map_left_iff.mpr (List.forall₂_same.mpr fun _ _ => rfl)⟩
    rw [← List.forall₂_comp_perm_eq_perm_comp_forall₂] at hpair
    obtain ⟨zs,hzs,hperm⟩ := hpair
    exact ⟨zs,hperm,List.forall₂_map_left_iff.mp hzs⟩
  · rintro ⟨zs,hperm,hpairs⟩
    have hmap : xs.map f = zs.map f := by
      induction hpairs generalizing ys with
      | nil => rfl
      | cons hxz _ ih => rw [List.map_cons,List.map_cons,hxz,ih (.refl _)]
    exact hmap ▸ hperm.map f

theorem forall₂_imp_mem {α β : Type} {P Q : α → β → Prop} {xs : List α} {ys : List β}
    (h : List.Forall₂ P xs ys) (himp : ∀ x ∈ xs, ∀ y ∈ ys, P x y → Q x y) : List.Forall₂ Q xs ys := by
  induction h with
  | nil => exact .nil
  | cons hxy _ ih =>
    exact .cons (himp _ List.mem_cons_self _ List.mem_cons_self hxy)
      (ih fun x hx y hy => himp x (List.mem_cons_of_mem _ hx) y (List.mem_cons_of_mem _ hy))

/-! ## Items -/

/-- Two items that contents do not tell apart: they have the same class and the same names, and,
unless they are plain vertices, the same marker or none. -/
structure Item.Indistinct (x y : Item) : Prop where
  /-- The classes agree. -/
  kind : x.kind = y.kind
  /-- The names agree. -/
  names : ∀ n, n ∈ x.names ↔ n ∈ y.names
  /-- The markers agree, up to the bounds that they remember. -/
  origin : x.kind.bearsProvenance = true →
    x.provenance.map Provenance.origin = y.provenance.map Provenance.origin

/-- Contents do not tell items whose names are in order apart exactly if they compare them by the same. -/
theorem Item.indistinct_iff {x y : Item} (hx : x.WellNamed) (hy : y.WellNamed) :
    x.Indistinct y ↔ x.identity = y.identity := by
  constructor
  · rintro ⟨hk,hn,ho⟩
    have hnodup : ∀ {z : Item}, z.WellNamed → z.names.Nodup := fun hz =>
      hz.increasing.imp fun h => ne_of_lt h
    have hnames : x.names = y.names :=
      ((List.perm_ext_iff_of_nodup (hnodup hx) (hnodup hy)).mpr hn).eq_of_pairwise
        (fun _ _ _ _ h h' => absurd h (lt_asymm h')) hx.increasing hy.increasing
    rw [Item.identity,Item.identity,← hk,hnames]
    by_cases hb : x.kind.bearsProvenance = true
    · rw [if_pos hb,if_pos hb,ho hb]
    · rw [if_neg hb,if_neg hb]
  · intro h
    have hk : x.kind = y.kind := congrArg ItemIdentity.kind h
    have hn : x.names = y.names := congrArg ItemIdentity.names h
    refine ⟨hk,fun n => by rw [hn],fun hb => ?_⟩
    have ho := congrArg ItemIdentity.origin h
    rw [Item.identity,Item.identity,← hk,if_pos hb,if_pos hb] at ho
    exact ho

/-- The place of an item in a content. -/
def ItemIdentity.place (i : ItemIdentity) : String ×ₗ Nat :=
  toLex (".".intercalate i.names,i.kind.rank)

theorem ItemClass.rank_injective {a b : ItemClass} (h : a.rank = b.rank) : a = b := by
  revert h
  cases a <;> cases b <;> decide

/-- What a constraint states. Whether it is about links follows from what it relates. -/
def Constraint.stated (c : Constraint) : Constraint := { c with onEdges := false }

namespace Query

variable {p q : Query}

/-- The items of a class with given joined names, in the order of their numbers, as they are
compared. -/
def namesakes (q : Query) (name : String) (kind : ItemClass) : List ItemIdentity :=
  (q.items.live.filter fun x => x.joinedName = name ∧ x.kind = kind).map Item.identity

/-- The live items of two queries can be paired off so that contents do not tell partners apart. -/
def Paired (p q : Query) : Prop :=
  ∃ ys, ys.Perm q.items.live ∧ List.Forall₂ Item.Indistinct p.items.live ys

/-- Joined names tell the live items of a class apart. -/
def Distinguished (q : Query) : Prop :=
  q.items.live.Pairwise fun x y => ¬(x.joinedName = y.joinedName ∧ x.kind = y.kind)

/-- Equally many constraints of each kind are declared: operator, operands, annotated item and
annotation count. -/
def SameConstraints (p q : Query) : Prop :=
  ((p.constraints .whole).map Constraint.stated).Perm ((q.constraints .whole).map Constraint.stated)

/-- Equally many constraints of each text are declared. -/
def SameTexts (p q : Query) : Prop :=
  ((p.constraints .whole).map Constraint.text).Perm ((q.constraints .whole).map Constraint.text)

/-- Texts tell the constraints of two queries apart. -/
def Legible (p q : Query) : Prop :=
  ∀ c ∈ p.constraints .whole, ∀ d ∈ q.constraints .whole, c.text = d.text → c.stated = d.stated

theorem wellNamed_of_mem_live (h : q.Named) {x : Item} (hx : x ∈ q.items.live) : x.WellNamed := by
  rw [Arena.live_eq_map_indexed] at hx
  obtain ⟨⟨i,y⟩,hy,rfl⟩ := List.mem_map.mp hx
  exact h.named (i:=⟨i⟩) (Arena.mem_indexed.mp hy)

theorem paired_iff (hp : p.Named) (hq : q.Named) :
    p.Paired q ↔ (p.items.live.map Item.identity).Perm (q.items.live.map Item.identity) := by
  rw [map_perm_map_iff]
  refine exists_congr fun ys => and_congr_right fun hperm => ?_
  have hys : ∀ y ∈ ys, y.WellNamed := fun y hy => wellNamed_of_mem_live hq (hperm.mem_iff.mp hy)
  have hxs : ∀ x ∈ p.items.live, x.WellNamed := fun x hx => wellNamed_of_mem_live hp hx
  constructor
  · intro h
    exact forall₂_imp_mem h fun x hx y hy => (Item.indistinct_iff (hxs x hx) (hys y hy)).mp
  · intro h
    exact forall₂_imp_mem h fun x hx y hy => (Item.indistinct_iff (hxs x hx) (hys y hy)).mpr

/-! ## Contents -/

theorem listedBefore_iff {a b : String × Item} : listedBefore a b = true ↔
    toLex (a.1,a.2.kind.rank)<toLex (b.1,b.2.kind.rank) := by
  rw [listedBefore,Prod.Lex.toLex_lt_toLex]
  simp

/-- A content lists the items in the order of their places. -/
theorem pairwise_content (q : Query) :
    q.content.items.Pairwise fun a b => a.place ≤ b.place := by
  have hsorted := pairwise_sortBy (f:=fun e : String × Item => toLex (e.1,e.2.kind.rank))
    (fun _ _ => listedBefore_iff) (q.items.live.map fun x => (x.joinedName,x))
  rw [content,sortedItems,List.map_map]
  refine List.pairwise_map.mpr (hsorted.imp_of_mem fun {a b} ha hb hab => ?_)
  have hfst : ∀ {e}, e ∈ sortBy listedBefore (q.items.live.map fun x => (x.joinedName,x)) →
      e.1 = e.2.joinedName := fun he => by
    obtain ⟨x,-,rfl⟩ := List.mem_map.mp ((sortBy_perm _ _).mem_iff.mp he)
    rfl
  rw [hfst ha,hfst hb] at hab
  exact hab

/-- In one place a content lists the items in the order of their numbers. -/
theorem filter_content (q : Query) (name : String) (kind : ItemClass) :
    q.content.items.filter (fun i => i.place = toLex (name,kind.rank)) = q.namesakes name kind := by
  let key := fun e : String × Item => toLex (e.1,e.2.kind.rank)
  have hplace : ∀ {e}, e ∈ sortBy listedBefore (q.items.live.map fun x => (x.joinedName,x)) →
      (e.2.identity.place = toLex (name,kind.rank) ↔ key e = toLex (name,kind.rank)) := by
    intro e he
    obtain ⟨x,-,rfl⟩ := List.mem_map.mp ((sortBy_perm _ _).mem_iff.mp he)
    exact Iff.rfl
  have hlive : ∀ x : Item, key (x.joinedName,x) = toLex (name,kind.rank) ↔
      x.joinedName = name ∧ x.kind = kind := fun x => by
    constructor
    · intro h
      obtain ⟨hn,hr⟩ := Prod.mk.inj (toLex.injective h)
      exact ⟨hn,ItemClass.rank_injective hr⟩
    · rintro ⟨rfl,rfl⟩
      rfl
  rw [content,sortedItems,List.map_map,List.filter_map]
  calc
    _ = ((sortBy listedBefore (q.items.live.map fun x => (x.joinedName,x))).filter
          fun e => key e = toLex (name,kind.rank)).map (Item.identity ∘ Prod.snd) :=
      congrArg _ (List.filter_congr fun e he => decide_eq_decide.mpr (hplace he))
    _ = ((q.items.live.map fun x => (x.joinedName,x)).filter
          fun e => key e = toLex (name,kind.rank)).map (Item.identity ∘ Prod.snd) := by
      rw [filter_sortBy (f:=key) fun _ _ => listedBefore_iff]
    _ = q.namesakes name kind := by
      rw [List.filter_map,List.map_map,namesakes]
      exact congrArg _ (List.filter_congr fun x _ => decide_eq_decide.mpr (hlive x))

/-- Contents list the same items exactly if they do so in every place. -/
theorem items_eq_iff : p.content.items = q.content.items ↔
    ∀ name kind, p.namesakes name kind = q.namesakes name kind := by
  constructor
  · intro h name kind
    rw [← filter_content,← filter_content,h]
  · intro h
    refine eq_of_filter p.pairwise_content q.pairwise_content fun k => ?_
    by_cases hk : ∃ name kind, k = toLex (name,ItemClass.rank kind)
    · obtain ⟨name,kind,rfl⟩ := hk
      rw [filter_content,filter_content,h]
    · -- No item is listed in a place that belongs to no class.
      have hnone : ∀ q : Query, q.content.items.filter (fun i => i.place = k) = [] := fun q =>
        List.filter_eq_nil_iff.mpr fun i _ hi =>
          hk ⟨_,i.kind,(of_decide_eq_true hi).symm⟩
      rw [hnone,hnone]

/-- Having the same content, in terms of items and texts. -/
theorem sameContent_iff_namesakes : p.sameContent q = true ↔
    (∀ name kind, p.namesakes name kind = q.namesakes name kind) ∧
      (p.subqueries .whole).length = (q.subqueries .whole).length ∧ p.SameTexts q := by
  have htexts : p.content.constraints = q.content.constraints ↔ p.SameTexts q :=
    sortBy_eq_iff fun a b => decide_eq_true_iff
  rw [sameContent,decide_eq_true_eq,← items_eq_iff,← htexts]
  constructor
  · intro h
    rw [h]
    exact ⟨rfl,congrArg Content.subqueries h,rfl⟩
  · rintro ⟨hi,hs,hc⟩
    exact Content.mk.injEq .. ▸ ⟨hi,hs,hc⟩

/-- The items of queries with the same content can be paired off. -/
theorem paired_of_sameContent (hp : p.Named) (hq : q.Named) (h : p.sameContent q = true) :
    p.Paired q := by
  have hitems : p.content.items = q.content.items :=
    congrArg Content.items (of_decide_eq_true h)
  refine (paired_iff hp hq).mpr ?_
  exact (p.sortedItems_perm.map Item.identity).symm.trans
    ((List.Perm.of_eq hitems).trans (q.sortedItems_perm.map Item.identity))

/-- In every place there is one item at most where joined names tell items apart. -/
theorem length_namesakes (h : q.Distinguished) (name : String) (kind : ItemClass) :
    (q.namesakes name kind).length ≤ 1 := by
  rw [namesakes,List.length_map]
  have hpair := h.filter fun x => x.joinedName = name ∧ x.kind = kind
  have hall : ∀ x ∈ q.items.live.filter (fun x => x.joinedName = name ∧ x.kind = kind),
      x.joinedName = name ∧ x.kind = kind := fun x hx => of_decide_eq_true (List.mem_filter.mp hx).2
  generalize q.items.live.filter (fun x => x.joinedName = name ∧ x.kind = kind) = l at hpair hall
  match l, hpair, hall with
  | [], _, _ => exact Nat.zero_le 1
  | [_], _, _ => exact Nat.le_refl 1
  | x :: y :: _, hpair, hall =>
    obtain ⟨hx,hxk⟩ := hall x List.mem_cons_self
    obtain ⟨hy,hyk⟩ := hall y (List.mem_cons_of_mem _ List.mem_cons_self)
    exact absurd ⟨hx.trans hy.symm,hxk.trans hyk.symm⟩
      ((List.pairwise_cons.mp hpair).1 y List.mem_cons_self)

/-- Where joined names tell items apart, items that are paired off are listed in the same order. -/
theorem Paired.namesakes_eq (h : p.Paired q) (hp : p.Named) (hq : q.Named) (hd : p.Distinguished)
    (name : String) (kind : ItemClass) : p.namesakes name kind = q.namesakes name kind := by
  have hfilter : ∀ q : Query, q.namesakes name kind = (q.items.live.map Item.identity).filter
      fun i => ".".intercalate i.names = name ∧ i.kind = kind := fun q => by
    rw [List.filter_map]
    rfl
  have hperm : (p.namesakes name kind).Perm (q.namesakes name kind) := by
    rw [hfilter,hfilter]
    exact ((paired_iff hp hq).mp h).filter _
  have hone := length_namesakes hd name kind
  match hl : p.namesakes name kind with
  | [] => exact (List.nil_perm.mp (hl ▸ hperm)).symm
  | [i] => exact List.singleton_perm.mp (hl ▸ hperm)
  | i :: j :: l =>
    rw [hl] at hone
    simp at hone

theorem SameConstraints.sameTexts (h : p.SameConstraints q) : p.SameTexts q := by
  have hmap : ∀ q : Query, (q.constraints .whole).map Constraint.text =
      ((q.constraints .whole).map Constraint.stated).map Constraint.text := fun q => by
    rw [List.map_map]
    rfl
  rw [SameTexts,hmap,hmap]
  exact h.map Constraint.text

theorem SameTexts.sameConstraints (h : p.SameTexts q) (hl : p.Legible q) : p.SameConstraints q := by
  obtain ⟨ds,hperm,hpairs⟩ := map_perm_map_iff.mp h
  exact map_perm_map_iff.mpr ⟨ds,hperm,forall₂_imp_mem hpairs fun c hc d hd =>
    hl c hc d (hperm.mem_iff.mp hd)⟩

/-- What having the same content means for queries that edits have made, in whatever order. The
items of every class with the same joined names agree, in the order of their numbers, there are
equally many subqueries, and the constraints have the same texts. The items can then be paired off,
and the fingerprints agree. Where joined names tell the items of a class apart and texts the
constraints, having the same content is to have items that can be paired off, equally many
subqueries and the same constraints. -/
theorem sameContent_iff (name description name' description' : String) (es es' : List Edit) :
    let p := (bare name description).edited es
    let q := (bare name' description').edited es'
    (p.sameContent q = true ↔ (∀ name kind, p.namesakes name kind = q.namesakes name kind) ∧
      (p.subqueries .whole).length = (q.subqueries .whole).length ∧ p.SameTexts q) ∧
    (p.sameContent q = true → p.Paired q ∧ p.fingerprint = q.fingerprint) ∧
    (p.Distinguished → p.Legible q → (p.sameContent q = true ↔ p.Paired q ∧
      (p.subqueries .whole).length = (q.subqueries .whole).length ∧ p.SameConstraints q)) := by
  intro p q
  have hp : p.Named := ((wellFormed_bare name description).edited es).1.named
  have hq : q.Named := ((wellFormed_bare name' description').edited es').1.named
  refine ⟨sameContent_iff_namesakes,fun h => ⟨paired_of_sameContent hp hq h,
    fingerprint_eq_of_sameContent h⟩,fun hd hl => ⟨fun h => ?_,fun ⟨hpair,hsub,hc⟩ => ?_⟩⟩
  · obtain ⟨-,hsub,htexts⟩ := sameContent_iff_namesakes.mp h
    exact ⟨paired_of_sameContent hp hq h,hsub,htexts.sameConstraints hl⟩
  · exact sameContent_iff_namesakes.mpr ⟨hpair.namesakes_eq hp hq hd,hsub,hc.sameTexts⟩

/-- Edits that add a vertex and two constraints on it. -/
def twoConstraints (first second : Constraint) : List Edit :=
  [.addVertex .root ⟨_,.vertex (rfl : Item.newVertex "A" = .ok _)⟩,.addConstraint .root first,
    .addConstraint .root second]

/-- A constraint that compares the vertex, or an attribute of it, with a number. -/
def compares (attr : Option String) (i : Int) : Constraint :=
  ⟨"eq",.item "A" attr,.literal (.int i),none,none,false⟩

/-- The order in which constraints are declared does not matter. -/
theorem sameContent_iff_reordered :
    let p := (bare "p" "").edited (twoConstraints (compares (some "x") 1) (compares (some "y") 2))
    let q := (bare "q" "").edited (twoConstraints (compares (some "y") 2) (compares (some "x") 1))
    p.Distinguished ∧ p.Legible q ∧ p.sameContent q = true := by
  intro p q
  have hd : p.Distinguished := by
    unfold Distinguished
    decide
  have hl : p.Legible q := by
    unfold Legible
    decide +kernel
  have hpair : p.Paired q :=
    (paired_iff ((wellFormed_bare "p" "").edited _).1.named
      ((wellFormed_bare "q" "").edited _).1.named).mpr (.of_eq (by decide +kernel))
  have hc : p.SameConstraints q := by
    unfold SameConstraints
    decide +kernel
  obtain ⟨-,-,hiff⟩ := sameContent_iff "p" "" "q" ""
    (twoConstraints (compares (some "x") 1) (compares (some "y") 2))
    (twoConstraints (compares (some "y") 2) (compares (some "x") 1))
  exact ⟨hd,hl,(hiff hd hl).mpr ⟨hpair,by decide +kernel,hc⟩⟩

/-- Edits that add two composite vertices. -/
def twoComposites (first second : { x : Item // x.Made }) : List Edit :=
  [.addVertex .root first,.addVertex .root second]

/-- A composite vertex with two names, in order. -/
def composite (first second : String) (h : Item.newComposite [first,second] =
    .ok (Item.bare [first,second] (.vertex true []))) : { x : Item // x.Made } :=
  ⟨_,.composite h⟩

/-- Where joined names do not tell items apart, items that can be paired off may be listed in
different orders. -/
theorem not_sameContent_of_paired :
    let first := composite "A" "B.C" (by decide)
    let second := composite "A.B" "C" (by decide)
    let p := (bare "p" "").edited (twoComposites first second)
    let q := (bare "q" "").edited (twoComposites second first)
    p.Paired q ∧ p.SameConstraints q ∧ p.sameContent q = false := by
  intro first second p q
  refine ⟨(paired_iff ((wellFormed_bare "p" "").edited _).1.named
    ((wellFormed_bare "q" "").edited _).1.named).mpr ?_,?_,by decide +kernel⟩
  · decide +kernel
  · unfold SameConstraints
    decide +kernel

/-- The identity of a vertex and an attribute of that name have the same text. -/
theorem sameContent_of_other_constraints :
    let p := (bare "p" "").edited (twoConstraints (compares none 1) (compares none 2))
    let q := (bare "q" "").edited (twoConstraints (compares (some "id") 1) (compares none 2))
    p.sameContent q = true ∧ ¬p.SameConstraints q := by
  intro p q
  refine ⟨by decide +kernel,?_⟩
  unfold SameConstraints
  decide +kernel

end Query

end GraphPattern
