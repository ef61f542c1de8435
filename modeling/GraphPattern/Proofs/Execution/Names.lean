import GraphPattern.Proofs.Execution.Chain
import Mathlib.Data.List.TakeWhile

/-!
# Names without dots

Composite vertices are told apart by their joined names, so a name with a dot in it can be taken for
that of another vertex. Without dots a run is always in order: before every step the entries are
those of the composite vertices whose results are still needed.
-/

namespace GraphPattern

open Step Rule Workspace

/-! ## Joined names -/

theorem takeWhile_intercalate {n : String} (ns : List String) (hn : '.' ∉ n.toList) :
    (".".intercalate (n :: ns)).toList.takeWhile (· ≠ '.') = n.toList := by
  have hall : ∀ c ∈ n.toList, decide (c ≠ '.') = true := fun c hc =>
    decide_eq_true fun he => hn (he ▸ hc)
  cases ns with
  | nil =>
    rw [String.intercalate_singleton]
    exact List.takeWhile_eq_self_iff.mpr hall
  | cons m ns =>
    rw [String.intercalate_cons_cons,String.toList_append,String.toList_append,List.append_assoc,
      List.takeWhile_append_of_pos hall]
    simp

namespace Query

/-- No name has a dot in it. -/
def Dotless (q : Query) : Prop := ∀ i x n, q.item? i = some x → n ∈ x.names → '.' ∉ n.toList

/-- An item has these joined names. -/
def Live (q : Query) (n : String) : Prop := ∃ i x, q.item? i = some x ∧ x.joinedName = n

/-- A composite vertex has these joined names. -/
def Composite (q : Query) (n : String) : Prop :=
  ∃ i x, q.item? i = some x ∧ x.kind = .composite ∧ x.joinedName = n

theorem Composite.live {q : Query} {n : String} (h : q.Composite n) : q.Live n := by
  obtain ⟨i,x,hx,-,hn⟩ := h
  exact ⟨i,x,hx,hn⟩

/-- Without dots the joined names tell items apart. -/
theorem Dotless.eq_of_joinedName {q : Query} (h : q.Dotless) (hq : q.Named) {i j : ItemId}
    {x y : Item} (hx : q.item? i = some x) (hy : q.item? j = some y)
    (hn : x.joinedName = y.joinedName) : i = j := by
  obtain ⟨n,ns,hxn⟩ := List.exists_cons_of_ne_nil (hq.named hx).nonempty
  obtain ⟨m,ms,hym⟩ := List.exists_cons_of_ne_nil (hq.named hy).nonempty
  have hnx : n ∈ x.names := by rw [hxn]; exact List.mem_cons_self
  have hmy : m ∈ y.names := by rw [hym]; exact List.mem_cons_self
  rw [Item.joinedName,Item.joinedName,hxn,hym] at hn
  have hfirst := congrArg (fun s : String => s.toList.takeWhile (· ≠ '.')) hn
  simp only [takeWhile_intercalate ns (h i x n hx hnx),takeWhile_intercalate ms (h j y m hy hmy)] at hfirst
  exact hq.disjoint hx hy hnx (String.toList_inj.mp hfirst ▸ hmy)

/-! ## What contents tell -/

variable {p q : Query}

/-- Queries with the same content have items that are compared by the same. -/
theorem exists_identity_of_content (h : p.content = q.content) {i : ItemId} {x : Item}
    (hx : p.item? i = some x) : ∃ j y, q.item? j = some y ∧ y.identity = x.identity := by
  have hmem : x ∈ p.items.live := by
    rw [Arena.live_eq_map_indexed]
    exact List.mem_map.mpr ⟨(i.index,x),Arena.mem_indexed.mpr hx,rfl⟩
  have hid : x.identity ∈ q.content.items := by
    rw [← h]
    exact List.mem_map_of_mem (p.sortedItems_perm.mem_iff.mpr hmem)
  obtain ⟨y,hy,he⟩ := List.mem_map.mp hid
  have hlive := q.sortedItems_perm.mem_iff.mp hy
  rw [Arena.live_eq_map_indexed] at hlive
  obtain ⟨⟨j,y'⟩,hj,rfl⟩ := List.mem_map.mp hlive
  exact ⟨⟨j⟩,y',Arena.mem_indexed.mp hj,he⟩

/-- Queries with the same content have items of the same names and classes. -/
theorem exists_item_of_content (h : p.content = q.content) {i : ItemId} {x : Item}
    (hx : p.item? i = some x) :
    ∃ j y, q.item? j = some y ∧ y.names = x.names ∧ y.kind = x.kind := by
  obtain ⟨j,y,hy,he⟩ := exists_identity_of_content h hx
  exact ⟨j,y,hy,congrArg ItemIdentity.names he,congrArg ItemIdentity.kind he⟩

theorem live_congr (h : p.content = q.content) {n : String} : p.Live n ↔ q.Live n := by
  have hone : ∀ {p q : Query}, p.content = q.content → p.Live n → q.Live n := by
    rintro p q h ⟨i,x,hx,hn⟩
    obtain ⟨j,y,hy,hnames,-⟩ := exists_item_of_content h hx
    exact ⟨j,y,hy,by rw [Item.joinedName,hnames]; exact hn⟩
  exact ⟨hone h,hone h.symm⟩

theorem composite_congr (h : p.content = q.content) {n : String} :
    p.Composite n ↔ q.Composite n := by
  have hone : ∀ {p q : Query}, p.content = q.content → p.Composite n → q.Composite n := by
    rintro p q h ⟨i,x,hx,hk,hn⟩
    obtain ⟨j,y,hy,hnames,hkind⟩ := exists_item_of_content h hx
    exact ⟨j,y,hy,hkind.trans hk,by rw [Item.joinedName,hnames]; exact hn⟩
  exact ⟨hone h,hone h.symm⟩

theorem Dotless.of_content (hp : p.Dotless) (h : p.content = q.content) : q.Dotless := by
  intro i x n hx hn
  obtain ⟨j,y,hy,hnames,-⟩ := exists_item_of_content h.symm hx
  exact hp j y n hy (hnames ▸ hn)

end Query

/-! ## Steps -/

namespace Rule.Reduction

open Query

variable {q q' : Query} {rule : Rule} {a : Application} {out : ItemId} {y : Item} {n : String}

/-- An application gives the joined names of its items. -/
theorem mem_names (hr : Reduction q rule a q' out) :
    n ∈ a.names ↔ ∃ i ∈ a.items, ∃ x, q.item? i = some x ∧ x.joinedName = n := by
  have hall : ∀ {items : List ItemId} {l : List Item},
      List.Forall₂ (fun i x => q.item? i = some x) items l →
        (n ∈ l.map Item.joinedName ↔ ∃ i ∈ items, ∃ x, q.item? i = some x ∧ x.joinedName = n) := by
    intro items l h
    induction h with
    | nil => simp
    | cons hx _ ih =>
      rw [List.map_cons,List.mem_cons,ih]
      simp only [List.mem_cons,exists_eq_or_imp,hx,Option.some.injEq,exists_eq_left']
      exact or_congr_left eq_comm
  cases hr with
  | getVertex live => exact hall (l:=[_]) (.cons live .nil)
  | absorbSelfLoop live settled edge => exact hall (l:=[_,_]) (.cons live (.cons edge .nil))
  | collapseEdge able =>
    exact hall (l:=[_,_,_]) (.cons able.kept (.cons able.edge (.cons able.absorbed .nil)))
  | absorbAnnotatedVertex able =>
    exact hall (l:=[_,_,_]) (.cons able.kept (.cons able.edge (.cons able.absorbed .nil)))
  | applyUpperLimit live => exact hall (l:=[_]) (.cons live .nil)
  | eliminateSubquery live => exact hall (l:=[_]) (.cons live .nil)
  | processConstraint live => exact hall (l:=[_]) (.cons live .nil)

/-- An application repeats no item. -/
theorem nodup_items (hr : Reduction q rule a q' out) : a.items.Nodup := by
  have hthree : ∀ {v e u : ItemId} {x y w : Item} {ends : EdgeEnds} {edges : List ItemId}
      {c d : ContainerId}, q.Absorbable e u v y w x ends edges c d →
        x.isVertex = true → [v,e,u].Nodup := by
    intro v e u x y w ends edges c d able hx
    have hve := ne_of_ends able.edge able.ended able.kept hx
    have hue := ne_of_ends able.edge able.ended able.absorbed (Item.isVertex_iff.mpr ⟨_,able.listed⟩)
    simp only [List.nodup_cons,List.mem_cons,List.not_mem_nil,or_false,not_or,not_false_eq_true,
      List.nodup_nil,and_true]
    exact ⟨⟨hve,able.ne⟩,Ne.symm hue⟩
  cases hr with
  | absorbSelfLoop live settled edge ended =>
    have hne := ne_of_ends edge ended live (Item.isVertex_of_kind (.inr settled.kind))
    simp only [List.nodup_cons,List.mem_singleton,List.not_mem_nil,not_false_eq_true,
      List.nodup_nil,and_true]
    exact hne
  | collapseEdge able settled => exact hthree able (Item.isVertex_of_kind (.inr settled.kind))
  | absorbAnnotatedVertex able settled =>
    exact hthree able (Item.isVertex_of_kind (.inr settled.kind))
  | getVertex | applyUpperLimit | eliminateSubquery | processConstraint =>
    exact List.nodup_singleton _

theorem dotless (h : q.WellFormed) (hd : q.Dotless) (hr : Reduction q rule a q' out) :
    q'.Dotless := by
  intro i z n hz hn
  have hc := hr.changes h
  by_cases hi : i = out
  · obtain ⟨y,hy,-,hnames⟩ := hc.out
    rw [hi,hy] at hz
    cases hz
    obtain ⟨j,-,x,hx,hm⟩ := (hnames n).mp hn
    exact hd j x n hx hm
  · obtain ⟨-,x,hx,hf⟩ := hc.back hz hi
    exact hd i x n hx (hf.names ▸ hn)

/-- An item that stays has not the joined names of the vertex that comes out. -/
theorem ne_result (h : q.WellFormed) (hq : q'.WellFormed) (hd : q'.Dotless)
    (hr : Reduction q rule a q' out) (hy : q'.item? out = some y) {j : ItemId} {x : Item}
    (hx : q.item? j = some x) (hj : j ∉ a.items) : x.joinedName ≠ y.joinedName := by
  obtain ⟨hne,z,hz,hf⟩ := (hr.changes h).forth hx hj
  intro he
  refine hne (hd.eq_of_joinedName hq.named hz hy ?_)
  rw [Item.joinedName,hf.names]
  exact he

end Rule.Reduction

namespace PlanStep

open Query

variable {s : PlanStep} {q' : Query} {out : ItemId} {y : Item} {n : String}

theorem mem_held {q : Query} {i : ItemId} : n ∈ (q.item? i).elim [] held ↔
    ∃ x, q.item? i = some x ∧ x.kind = .composite ∧ x.joinedName = n := by
  cases q.item? i with
  | none => simp
  | some x => simp [held,Item.isComposite,eq_comm]

theorem mem_taken : n ∈ s.taken ↔ ∃ i ∈ s.step.application.items, ∃ x,
    s.before.item? i = some x ∧ x.kind = .composite ∧ x.joinedName = n := by
  simp only [taken,List.mem_flatMap,mem_held]

section Dotless

variable (h : s.before.WellFormed) (hd : s.before.Dotless)
  (hr : Reduction s.before s.step.rule s.step.application q' out)

include h hd hr

/-- Without dots, what is in the ledger for a vertex is about that vertex. -/
theorem not_mem_taken {j : ItemId} {x : Item} (hx : s.before.item? j = some x)
    (hj : j ∉ s.step.application.items) :
    x.joinedName ∉ s.taken ∧ x.joinedName ∉ s.step.application.names := by
  refine ⟨fun hm => ?_,fun hm => ?_⟩
  · obtain ⟨i,hi,z,hz,-,hn⟩ := mem_taken.mp hm
    exact hj (hd.eq_of_joinedName h.named hz hx hn ▸ hi)
  · obtain ⟨i,hi,z,hz,hn⟩ := hr.mem_names.mp hm
    exact hj (hd.eq_of_joinedName h.named hz hx hn ▸ hi)

theorem nodup_taken : s.taken.Nodup := by
  refine List.nodup_flatMap.mpr ⟨fun i _ => ?_,?_⟩
  · cases s.before.item? i with
    | none => exact List.nodup_nil
    | some x => exact nodup_held x
  · refine hr.nodup_items.imp fun {i j} hij n hi hj => ?_
    obtain ⟨x,hx,-,hxn⟩ := mem_held.mp hi
    obtain ⟨z,hz,-,hzn⟩ := mem_held.mp hj
    exact hij (hd.eq_of_joinedName h.named hx hz (hxn.trans hzn.symm))

variable (hy : q'.item? out = some y)

include hy

/-- The composite vertices after a step: the one that came out, and those that took no part. -/
theorem composite_iff : q'.Composite n ↔ n = y.joinedName ∨ s.before.Composite n ∧ n ∉ s.taken := by
  have hc := hr.changes h
  constructor
  · rintro ⟨j,z,hz,hk,rfl⟩
    by_cases hj : j = out
    · rw [hj,hy] at hz
      cases hz
      exact .inl rfl
    · obtain ⟨hm,x,hx,hf⟩ := hc.back hz hj
      have hn : z.joinedName = x.joinedName := by rw [Item.joinedName,hf.names]; rfl
      rw [hn]
      exact .inr ⟨⟨j,x,hx,hf.kind.symm.trans hk,rfl⟩,(not_mem_taken h hd hr hx hm).1⟩
  · rintro (rfl|⟨⟨j,x,hx,hk,rfl⟩,hn⟩)
    · obtain ⟨z,hz,hk,-⟩ := hc.out
      rw [hy] at hz
      cases hz
      exact ⟨out,y,hy,hk,rfl⟩
    · have hj : j ∉ s.step.application.items := fun hj => hn (mem_taken.mpr ⟨j,hj,x,hx,hk,rfl⟩)
      obtain ⟨-,z,hz,hf⟩ := hc.forth hx hj
      exact ⟨j,z,hz,hf.kind.trans hk,by rw [Item.joinedName,hf.names]; rfl⟩

/-- An item after a step beside the vertex that came out took no part. -/
theorem live_back (hn : q'.Live n) (hne : n ≠ y.joinedName) :
    s.before.Live n ∧ n ∉ s.taken ∧ n ∉ s.step.application.names := by
  obtain ⟨j,z,hz,rfl⟩ := hn
  have hj : j ≠ out := by
    rintro rfl
    rw [hy] at hz
    cases hz
    exact hne rfl
  obtain ⟨hm,x,hx,hf⟩ := (hr.changes h).back hz hj
  have hname : z.joinedName = x.joinedName := by rw [Item.joinedName,hf.names]; rfl
  rw [hname]
  exact ⟨⟨j,x,hx,rfl⟩,not_mem_taken h hd hr hx hm⟩

/-- If a composite vertex had the joined names of the one that came out, it took part. -/
theorem result_taken (hq : q'.WellFormed) (hn : s.before.Composite y.joinedName) :
    y.joinedName ∈ s.taken := by
  obtain ⟨j,x,hx,hk,hname⟩ := hn
  by_contra hm
  have hj : j ∉ s.step.application.items := fun hj => hm (mem_taken.mpr ⟨j,hj,x,hx,hk,hname⟩)
  exact hr.ne_result h hq (hr.dotless h hd) hy hx hj hname

omit hd in
/-- A rule that writes in place leaves the names of its vertex as they are. -/
theorem taken_of_inPlace
    (hw : s.step.rule.writing = .inPlace ∨ s.step.rule.writing = .nothing) :
    s.taken = [y.joinedName] := by
  have hone : ∀ {v : ItemId} {x : Item}, s.step.application.items = [v] →
      s.before.item? v = some x → x.kind = .composite → s.taken = [x.joinedName] := by
    intro v x hi hx hk
    rw [taken_eq hi (.cons hx .nil),List.flatMap_cons,held,Item.isComposite,hk]
    rfl
  generalize hrule : s.step.rule = rule at hr hw
  generalize happ : s.step.application = a at hr
  have hitems : s.step.application.items = a.items := congrArg Application.items happ
  cases hr with
  | getVertex | absorbSelfLoop | collapseEdge | absorbAnnotatedVertex => exact absurd hw (by decide)
  | applyUpperLimit live kind =>
    rw [item?_mapItem,if_pos rfl,live] at hy
    cases hy
    exact (hone hitems live kind).trans rfl
  | @eliminateSubquery _ x r p C live settled owner inner =>
    rw [item?_mapItem,if_pos rfl,item?_flattened_inside h inner live owner] at hy
    cases hy
    exact (hone hitems live settled.kind).trans rfl
  | processConstraint live settled =>
    rw [item?_mapContainer,live] at hy
    cases hy
    exact hone hitems live settled.kind

/-- The names after a step that finds what it takes, and whose result has no entry yet. -/
theorem replayed?_some (hres : s.step.result.joinedName = y.joinedName) {names : List String}
    (hs : names.Pairwise (· < ·)) (ho : ∀ m ∈ s.taken, m ∈ names)
    (hf : y.joinedName ∈ names → y.joinedName ∈ s.taken) :
    ∃ names', s.replayed? names = some names' ∧ names'.Pairwise (· < ·) ∧
      ∀ n, n ∈ names' ↔ n = y.joinedName ∨ n ∈ names ∧ n ∉ s.taken := by
  have hoffered : s.taken.Nodup ∧ ∀ m ∈ s.taken, m ∈ names := ⟨nodup_taken h hd hr,ho⟩
  have hrest : (names.filter (· ∉ s.taken)).Pairwise (· < ·) := hs.filter _
  have hwritten : ∀ n, n ∈ insertOrdered y.joinedName (names.filter (· ∉ s.taken)) ↔
      n = y.joinedName ∨ n ∈ names ∧ n ∉ s.taken := by
    intro n
    rw [mem_insertOrdered,List.mem_filter,decide_eq_true_eq]
  -- What a step that writes in place leaves are the names as they are.
  have hsame : s.taken = [y.joinedName] →
      ∀ n, n ∈ names ↔ n = y.joinedName ∨ n ∈ names ∧ n ∉ s.taken := by
    intro ht n
    rw [ht] at ho ⊢
    by_cases hn : n = y.joinedName
    · simp [hn,ho]
    · simp [hn]
  cases hw : s.step.rule.writing with
  | nothing =>
    have ht := taken_of_inPlace h hr hy (.inr hw)
    exact ⟨names,by rw [replayed?,hw],hs,hsame ht⟩
  | inPlace =>
    have ht := taken_of_inPlace h hr hy (.inl hw)
    have hin : y.joinedName ∈ names := ho _ (by rw [ht]; exact List.mem_cons_self)
    refine ⟨_,by rw [replayed?_inPlace _ hw,hres,if_pos hin],pairwise_insertOrdered hs,fun n => ?_⟩
    rw [mem_insertOrdered,← hsame ht n]
    exact ⟨fun hn => hn.elim (fun he => he ▸ hin) id,.inr⟩
  | replacing =>
    exact ⟨_,by rw [replayed?_replacing _ hw,hres,if_pos hoffered],pairwise_insertOrdered hrest,hwritten⟩
  | anew =>
    have hfresh : y.joinedName ∉ names.filter (· ∉ s.taken) := fun hm => by
      obtain ⟨hn,ht⟩ := List.mem_filter.mp hm
      exact of_decide_eq_true ht (hf hn)
    exact ⟨_,by rw [replayed?_anew _ hw,hres,if_pos ⟨hoffered,hfresh⟩],pairwise_insertOrdered hrest,
      hwritten⟩

/-- If the names before a step are those of the composite vertices that it needs or that are needed
later, the names after it are those of the composite vertices that are needed later. -/
theorem replayed?_needed (hres : s.step.result.joinedName = y.joinedName) (hq : q'.WellFormed)
    {names needed : List String} (hs : names.Pairwise (· < ·)) (hneeded : y.joinedName ∈ needed)
    (hn : ∀ n, n ∈ names ↔ s.before.Composite n ∧
      ((n ∈ needed ∧ n ≠ y.joinedName) ∨ n ∈ s.step.application.names)) :
    ∃ names', s.replayed? names = some names' ∧ names'.Pairwise (· < ·) ∧
      ∀ n, n ∈ names' ↔ q'.Composite n ∧ n ∈ needed := by
  -- What a step takes are composite vertices among its items, so it is needed and there.
  have hoffered : ∀ n ∈ s.taken, n ∈ names := by
    intro n hm
    obtain ⟨i,hi,z,hz,hk,hzn⟩ := mem_taken.mp hm
    exact (hn n).mpr ⟨⟨i,z,hz,hk,hzn⟩,.inr (hr.mem_names.mpr ⟨i,hi,z,hz,hzn⟩)⟩
  have hfresh : y.joinedName ∈ names → y.joinedName ∈ s.taken := fun hm =>
    result_taken h hd hr hy hq ((hn _).mp hm).1
  obtain ⟨names',hrep,hs',hn'⟩ := replayed?_some h hd hr hy hres hs hoffered hfresh
  refine ⟨names',hrep,hs',fun n => ?_⟩
  rw [hn',composite_iff h hd hr hy,hn]
  constructor
  · rintro (rfl|⟨⟨hc,hm|hm⟩,ht⟩)
    · exact ⟨.inl rfl,hneeded⟩
    · exact ⟨.inr ⟨hc,ht⟩,hm.1⟩
    · obtain ⟨j,z,hz,hk,rfl⟩ := hc
      refine absurd ?_ ht
      by_contra hnot
      have hj : j ∉ s.step.application.items := fun hj =>
        hnot (mem_taken.mpr ⟨j,hj,z,hz,hk,rfl⟩)
      exact (not_mem_taken h hd hr hz hj).2 hm
  · rintro ⟨rfl|⟨hc,ht⟩,hm⟩
    · exact .inl rfl
    · exact (eq_or_ne n y.joinedName).imp id fun hne => ⟨⟨hc,.inl ⟨hm,hne⟩⟩,ht⟩

end Dotless

end PlanStep

/-! ## Runs -/

namespace Execution

open Query

variable {cached : OrderedMap String String} {finalName : String}

/-- Only results that are there in the end, or items that take part, are needed. -/
theorem live_of_needed (cached : OrderedMap String String) {q u : Query} {steps : List PlanStep}
    (h : Chain q steps u) (hd : q.Dotless) (hu : u.Live finalName) :
    ∀ n ∈ (modes cached finalName steps).2, q.Live n := by
  induction h with
  | nil able =>
    intro n hn
    rw [List.mem_singleton.mp hn]
    exact hu
  | @cons q q' t u x out y steps able reduced live named kept rest ih =>
    have hw := able.plannable.wellFormed
    have hd' : q'.Dotless := reduced.dotless hw hd
    have hrest := ih (hd'.of_content kept) hu
    -- What is needed later and is not the result is an item that takes no part.
    have hback : ∀ n ∈ (modes cached finalName steps).2, n ≠ y.joinedName → q.Live n :=
      fun n hn hne => (PlanStep.live_back (s:=⟨q,x⟩) hw hd reduced live
        ((live_congr kept).mpr (hrest n hn)) hne).1
    intro n hn
    rw [modes,named] at hn
    simp only at hn
    split at hn
    · rename_i hneeded
      have hothers : ∀ n ∈ (modes cached finalName steps).2.filter (· ≠ y.joinedName), q.Live n :=
        fun n hn => hback n (List.mem_filter.mp hn).1 (of_decide_eq_true (List.mem_filter.mp hn).2)
      split at hn
      · exact hothers n hn
      · rcases List.mem_append.mp hn with hn|hn
        · exact hothers n hn
        · obtain ⟨i,-,z,hz,hzn⟩ := reduced.mem_names.mp hn
          exact ⟨i,z,hz,hzn⟩
    · rename_i hneeded
      exact hback n hn fun he => hneeded (he ▸ hn)

/-- Before every step the entries are those of the composite vertices that are still needed. -/
theorem ledger?_some {q u : Query} {steps : List PlanStep} (h : Chain q steps u)
    (hd : q.Dotless) (hu : u.Live finalName) {names : List String} (hs : names.Pairwise (· < ·))
    (hn : ∀ n, n ∈ names ↔ q.Composite n ∧ n ∈ (modes cached finalName steps).2) :
    ∃ names', ledger? (steps.zip (modes cached finalName steps).1) names = some names' ∧
      names'.Pairwise (· < ·) ∧ ∀ n, n ∈ names' ↔ u.Composite n ∧ n = finalName := by
  induction h generalizing names with
  | nil able => exact ⟨names,rfl,hs,fun n => (hn n).trans (and_congr_right fun _ => List.mem_singleton)⟩
  | @cons q q' t u x out y steps able reduced live named kept rest ih =>
    have hw := able.plannable.wellFormed
    have hq := (reduced.carriedOut able.plannable).2.1.wellFormed
    have hd' : q'.Dotless := reduced.dotless hw hd
    have hlive := live_of_needed cached rest (hd'.of_content kept) hu
    have hback : ∀ n ∈ (modes cached finalName steps).2, n ≠ y.joinedName →
        q.Live n ∧ n ∉ (PlanStep.mk q x).taken ∧ n ∉ x.application.names :=
      fun n hm hne => PlanStep.live_back (s:=⟨q,x⟩) hw hd reduced live
        ((live_congr kept).mpr (hlive n hm)) hne
    have hcomp : ∀ n, t.Composite n ↔ n = y.joinedName ∨ q.Composite n ∧ n ∉ (PlanStep.mk q x).taken :=
      fun n => (composite_congr kept).symm.trans
        (PlanStep.composite_iff (s:=⟨q,x⟩) hw hd reduced live)
    rw [modes,named] at hn ⊢
    simp only at hn ⊢
    by_cases hneeded : y.joinedName ∈ (modes cached finalName steps).2
    · simp only [if_pos hneeded] at hn ⊢
      cases hsource : commonSource? cached y.names with
      | some source =>
        simp only [hsource] at hn ⊢
        obtain ⟨names',hl,hs',hn'⟩ := ih (hd'.of_content kept) hu
          (pairwise_insertOrdered (x:=y.joinedName) hs) fun n => by
            rw [mem_insertOrdered,hn,hcomp,List.mem_filter,decide_eq_true_eq]
            constructor
            · rintro (rfl|⟨hc,hm,hne⟩)
              · exact ⟨.inl rfl,hneeded⟩
              · exact ⟨.inr ⟨hc,(hback n hm hne).2.1⟩,hm⟩
            · rintro ⟨rfl|⟨hc,ht⟩,hm⟩
              · exact .inl rfl
              · exact (eq_or_ne n y.joinedName).imp id fun hne => ⟨hc,hm,hne⟩
        refine ⟨names',?_,hs',hn'⟩
        rw [List.zip_cons_cons,ledger?_cons,stepped?,named]
        exact hl
      | none =>
        simp only [hsource] at hn ⊢
        obtain ⟨names₁,hl₁,hs₁,hn₁⟩ := PlanStep.replayed?_needed (s:=⟨q,x⟩) hw hd reduced live
          (by rw [named]) hq hs hneeded fun n => by
            rw [hn,List.mem_append,List.mem_filter,decide_eq_true_eq]
        obtain ⟨names',hl,hs',hn'⟩ := ih (hd'.of_content kept) hu hs₁ fun n =>
          (hn₁ n).trans (and_congr_left fun _ => composite_congr kept)
        refine ⟨names',?_,hs',hn'⟩
        rw [List.zip_cons_cons,ledger?_cons,stepped?,hl₁]
        exact hl
    · simp only [if_neg hneeded] at hn ⊢
      obtain ⟨names',hl,hs',hn'⟩ := ih (hd'.of_content kept) hu hs fun n => by
        rw [hn,hcomp]
        constructor
        · rintro ⟨hc,hm⟩
          exact ⟨.inr ⟨hc,(hback n hm fun he => hneeded (he ▸ hm)).2.1⟩,hm⟩
        · rintro ⟨rfl|⟨hc,-⟩,hm⟩
          · exact absurd hm hneeded
          · exact ⟨hc,hm⟩
      refine ⟨names',?_,hs',hn'⟩
      rw [List.zip_cons_cons,ledger?_cons,stepped?]
      exact hl

end Execution

end GraphPattern
