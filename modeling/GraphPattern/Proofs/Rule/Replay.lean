import GraphPattern.Proofs.Rule.Reduction
import GraphPattern.Proofs.Rule.Rows

/-!
# Replaying reductions

What each rule does to the registry of a run when it replays a reduction: which entries it needs,
which entry it writes, and which rows that entry holds.
-/

namespace GraphPattern

open Step Matches

namespace Workspace

variable {w w' : Workspace} {taken : List String} {q : Query} {v : ItemId} {x : Item}

/-- The names under which the tables of a vertex are kept. -/
def held (x : Item) : List String := if x.isComposite then [x.joinedName] else []

/-- The matches of a vertex: those of its entry, or the objects that satisfy its condition. -/
def Supplies (w : Workspace) (x : Item) (rows : Rows × Rows) : Prop :=
  if x.isComposite then w.Entry x.joinedName rows.1 rows.2
  else rows = (ofObjects w.store x.condition x.firstName,[])

/-- Entries can be taken under some names, one after another. -/
def Offers (w : Workspace) (names : List String) : Prop :=
  names.Nodup ∧ ∀ n ∈ names, n ∈ w.registry.keys

theorem ofObjects_congr {s s' : Store} (h : s'.objects = s.objects) (condition : Option Condition)
    (name : String) : ofObjects s' condition name = ofObjects s condition name := by
  rw [ofObjects,ofObjects,Store.objectRows,Store.objectRows,h]

/-- The tables of a vertex hold its matches. An entry that is missing, or that was taken before, is
the only obstacle. -/
theorem Within.outcome_vertexTables (h : Within w taken w') (hs : w.Sound)
    (hx : q.item? v = some x) :
    Outcome (vertexTables q v) w'
      (fun tables w'' => (∀ n ∈ held x, n ∈ w.registry.keys ∧ n ∉ taken) ∧
        Within w (taken ++ held x) w'' ∧ w'.store.Grows w''.store ∧ ∃ rows, w.Supplies x rows ∧
          w''.Has tables.objects Column.matched rows.1 ∧
          w''.Has tables.links Column.matched rows.2)
      (∃ n ∈ held x, n ∉ w.registry.keys ∨ n ∈ taken) := by
  refine .after (a:=x) (t:=w') (by rw [Query.item_of_some hx]; rfl) ?_
  by_cases hc : x.isComposite = true
  · rw [if_pos hc]
    refine (h.take hs x.joinedName).imp (fun tables w'' hw => ?_) fun hf => ?_
    · obtain ⟨hk,ht,hwithin,hstore,O,L,he,ho,hl⟩ := hw
      rw [held,if_pos hc]
      refine ⟨fun n hn => ?_,hwithin,hstore ▸ .refl _,(O,L),?_,ho,hl⟩
      · rw [List.mem_singleton.mp hn]
        exact ⟨hk,ht⟩
      · rw [Supplies,if_pos hc]
        exact he
    · rw [held,if_pos hc]
      exact ⟨_,List.mem_cons_self,hf⟩
  · rw [if_neg hc]
    refine ((makes_temporary (Store.makes_objectMatches w'.store x.condition x.firstName)).imp
      (fun _ _ hm => hm) False.elim).bind fun o w₁ h₁ => ?_
    have hlinks : w₁.store.Makes (Store.createTable Column.matched) Column.matched [] := by
      rw [Store.createTable,if_pos (by decide)]
      exact Store.makes_insertTable w₁.store (.bare Column.matched)
    refine ((makes_temporary hlinks).imp (fun _ _ hm => hm) False.elim).bind fun l w₂ h₂ => ?_
    have h₂' := h₁.scratches.trans h₂.scratches
    refine .of_ok (a:=⟨o,l⟩) (t:=w₂) rfl ⟨?_,?_,h₂'.store,(_,_),?_,h₂.scratches.has h₁.has,h₂.has⟩
    · rw [held,if_neg hc]
      exact fun n hn => absurd hn List.not_mem_nil
    · rw [held,if_neg hc,List.append_nil]
      exact h.scratches h₂'
    · rw [Supplies,if_neg hc]
      exact congrArg (·,[]) (ofObjects_congr h.store.data.objects _ _)

/-- The tables of an entry are looked up. -/
theorem Within.outcome_require (h : Within w [] w') (hs : w.Sound) (name : String) :
    Outcome (require name) w'
      (fun tables w'' => name ∈ w.registry.keys ∧ w'' = w' ∧ ∃ O L, w.Entry name O L ∧
        w''.Has tables.objects Column.matched O ∧ w''.Has tables.links Column.matched L)
      (name ∉ w.registry.keys) := by
  have hreg : w'.registry.find? name = w.registry.find? name :=
    (h.registry name).trans (if_neg List.not_mem_nil)
  by_cases hk : name ∈ w.registry.keys
  · obtain ⟨e,O,L,he,hentry⟩ := hs.exists_entry hk
    obtain ⟨ho,hl⟩ := hs.has he hentry
    refine .of_ok (a:=e) (t:=w') ?_ ⟨hk,rfl,O,L,hentry,h.has ho,h.has hl⟩
    simp only [require,bind_apply,get_apply,hreg,he,pure_apply]
  · have hnone : w.registry.find? name = none := by
      rw [← OrderedMap.find?_isSome_iff] at hk
      simpa using hk
    refine .of_error (e:=.state (.noTables name)) (t:=w') ?_ hk
    simp only [require,bind_apply,get_apply,hreg,hnone,refuseState_apply]

theorem nodup_held (x : Item) : (held x).Nodup := by
  rw [held]
  split
  · exact List.nodup_singleton _
  · exact List.nodup_nil

theorem offers_held : w.Offers (held x) ↔ ∀ n ∈ held x, n ∈ w.registry.keys ∧ n ∉ [] :=
  ⟨fun h n hn => ⟨h.2 n hn,List.not_mem_nil⟩,fun h => ⟨nodup_held x,fun n hn => (h n hn).1⟩⟩

theorem offers_iff {y : Item} : w.Offers (held x ++ held y) ↔
    (∀ n ∈ held x, n ∈ w.registry.keys ∧ n ∉ []) ∧
      ∀ n ∈ held y, n ∈ w.registry.keys ∧ n ∉ [] ++ held x := by
  rw [Offers,List.nodup_append,List.nil_append]
  constructor
  · rintro ⟨⟨-,-,hne⟩,hall⟩
    exact ⟨fun n hn => ⟨hall n (List.mem_append_left _ hn),List.not_mem_nil⟩,
      fun n hn => ⟨hall n (List.mem_append_right _ hn),fun hx => hne n hx n hn rfl⟩⟩
  · rintro ⟨hx,hy⟩
    refine ⟨⟨nodup_held x,nodup_held y,fun m hm n hn he => (hy n hn).2 (he ▸ hm)⟩,fun n hn => ?_⟩
    rcases List.mem_append.mp hn with hn|hn
    · exact (hx n hn).1
    · exact (hy n hn).1

theorem not_offers_held (h : ∃ n ∈ held x, n ∉ w.registry.keys ∨ n ∈ []) :
    ¬w.Offers (held x) := by
  obtain ⟨n,hn,hf⟩ := h
  intro ho
  obtain ⟨hk,ht⟩ := offers_held.mp ho n hn
  exact hf.elim (fun h => h hk) ht

theorem not_offers {y : Item} {F : Prop}
    (h : (∃ n ∈ held x, n ∉ w.registry.keys ∨ n ∈ []) ∨
      ∃ n ∈ held y, n ∉ w.registry.keys ∨ n ∈ [] ++ held x) :
    ¬(w.Offers (held x ++ held y) ∧ F) := by
  rintro ⟨ho,-⟩
  obtain ⟨hx,hy⟩ := offers_iff.mp ho
  rcases h with ⟨n,hn,hk|ht⟩|⟨n,hn,hk|ht⟩
  · exact hk (hx n hn).1
  · exact absurd ht List.not_mem_nil
  · exact hk (hy n hn).1
  · exact (hy n hn).2 ht

/-- Work goes on with the tables of two vertices, unless an entry is missing or taken twice. -/
theorem outcome_bothTables {α : Type} (hs : w.Sound) {u : ItemId} {z : Item}
    (hx : q.item? v = some x) (hz : q.item? u = some z)
    {k : SubgraphTables → SubgraphTables → WorkStep α} {P : α → Workspace → Prop} {F : Prop}
    (hk : ∀ xt zt w' X Z, w.Offers (held x ++ held z) → Within w (held x ++ held z) w' →
      w.Supplies x X → w.Supplies z Z →
      w'.Has xt.objects Column.matched X.1 → w'.Has xt.links Column.matched X.2 →
      w'.Has zt.objects Column.matched Z.1 → w'.Has zt.links Column.matched Z.2 →
      Outcome (k xt zt) w' P ¬(w.Offers (held x ++ held z) ∧ F)) :
    Outcome (do
      let xt ← vertexTables q v
      let zt ← vertexTables q u
      k xt zt) { w with scratch := [] } P ¬(w.Offers (held x ++ held z) ∧ F) := by
  refine (((Within.start w).outcome_vertexTables hs hx).imp (fun _ _ h => h)
    fun h => not_offers (.inl h)).bind fun xt w₁ hw₁ => ?_
  obtain ⟨hx₁,h₁,-,X,hX,hXo,hXl⟩ := hw₁
  refine ((h₁.outcome_vertexTables hs hz).imp (fun _ _ h => h)
    fun h => not_offers (.inr h)).bind fun zt w₂ hw₂ => ?_
  obtain ⟨hz₂,h₂,hg₂,Z,hZ,hZo,hZl⟩ := hw₂
  rw [List.nil_append] at h₂
  exact hk xt zt w₂ X Z (offers_iff.mpr ⟨hx₁,hz₂⟩) h₂ hX hZ (hXo.grows hg₂) (hXl.grows hg₂) hZo hZl

end Workspace

namespace Rule

open Workspace

variable {w : Workspace} {r : Replay} {v e u : ItemId} {rest : List ItemId} {x y z : Item}
  {ends : EdgeEnds}

theorem replayedEdge_ok {n : Nat} (hi : r.application.items[n]? = some e)
    (hy : r.before.item? e = some y) (he : y.ends? = some ends) :
    replayedEdge r n = .ok (y,ends) := by
  simp only [replayedEdge,Application.item,hi,except_pure,ok_bind,Query.item_of_some hy,he]

/-! ## Matching a vertex -/

theorem createTable_matched (s : Store) :
    s.Makes (Store.createTable Column.matched) Column.matched [] := by
  rw [Store.createTable,if_pos (by decide)]
  exact Store.makes_insertTable s (.bare Column.matched)

/-- A vertex is matched anew, unless its name is taken. -/
theorem GetVertex.outcome_replay (hs : w.Sound) (hi : r.application.items = v :: rest)
    (hx : r.before.item? v = some x) :
    Outcome (GetVertex.replay r) w
      (fun _ w' => r.result.joinedName ∉ w.registry.keys ∧
        Wrote w [] r.result.joinedName (ofObjects w.store x.condition x.joinedName) [] w')
      ¬(r.result.joinedName ∉ w.registry.keys) := by
  refine .after (a:=v) (t:=w) (by rw [Application.item,hi]; rfl) ?_
  refine .after (a:=x) (t:=w) (by rw [Query.item_of_some hx]; rfl) ?_
  refine (outcome_lift ((Store.makes_objectMatches w.store x.condition x.joinedName).imp
    (fun _ _ h => h) False.elim)).bind fun o w₁ hw₁ => ?_
  obtain ⟨s,ho,rfl⟩ := hw₁
  refine Outcome.bind (outcome_withScratch ?_) fun _ w' hw' => .of_ok rfl hw'
  refine .after (a:=o) (t:=⟨s,w.registry,[o]⟩) rfl ?_
  by_cases hn : r.result.joinedName ∈ w.registry.keys
  · have hc : w.registry.contains r.result.joinedName = true := OrderedMap.contains_iff.mpr hn
    have hput : put r.result.joinedName o none ⟨s,w.registry,[o]⟩ =
        .error (.state (.tablesExist r.result.joinedName)) ⟨s,w.registry,[o]⟩ := by
      simp only [put,bind_apply,get_apply,hc,if_true,refuseState_apply]
    exact Outcome.bind (P:=fun _ _ => False) (.of_error hput (not_not_intro hn)) fun _ _ h => h.elim
  · have hc : w.registry.contains r.result.joinedName = false := by
      rw [← Bool.not_eq_true,OrderedMap.contains_iff]
      exact hn
    obtain ⟨l,s₂,hl,hm⟩ := (createTable_matched s).ok
    have hput : put r.result.joinedName o none ⟨s,w.registry,[o]⟩ =
        .ok ⟨⟩ ⟨s₂,w.registry.insert r.result.joinedName ⟨o,l⟩,[o]⟩ := by
      simp only [put,bind_apply,get_apply,hc,Bool.false_eq_true,if_false,lift_apply,hl,
        modify_apply]
    refine .after hput (.of_ok (a:=⟨⟩) rfl ⟨hn,?_⟩)
    have hwithin : Within w [] ⟨s₂,w.registry,[]⟩ :=
      ⟨fun _ => rfl,(List.filter_eq_self.mpr fun _ _ => rfl).symm,ho.grows.trans hm.grows,
        fun _ hi => absurd hi List.not_mem_nil⟩
    have hne : o ≠ l := fun he => Nat.not_lt_of_le ho.bounded (he ▸ hm.fresh)
    refine hwithin.write hs (o:=o) (l:=l) (d:=[])
      ⟨Nat.le_trans ho.bounded hm.grows.created,hm.grows.holds ho.bounded ho.holds⟩
      ⟨hm.bounded,hm.holds⟩ ho.fresh (Nat.lt_of_le_of_lt ho.grows.created hm.fresh) hne rfl rfl ?_ ?_ ?_
      (fun _ hi => absurd hi List.not_mem_nil)
    · exact ⟨rfl,rfl,rfl,rfl⟩
    · rfl
    · intro i _
      refine (Store.find?_discard _ _ i).trans (if_neg ?_)
      simp

/-! ## Absorbing a self-loop -/

namespace AbsorbSelfLoop

/-- The rows of a vertex after it has absorbed a self-loop. -/
def result (links : Rows) (y : Item) (ends : EdgeEnds) (X : Rows × Rows) : Rows × Rows :=
  let found := linked ends.directed true links (named ends.sourceName X.1)
    (named ends.targetName X.1)
  let remaining := Table.distinctRows [0] found
  (kept X.1 remaining,
    kept X.2 remaining ++ laid (labelled y.joinedName (Table.distinctRows [2,0] found)))

theorem outcome_replay (hs : w.Sound) (hi : r.application.items = v :: e :: rest)
    (hx : r.before.item? v = some x) (hy : r.before.item? e = some y)
    (he : y.ends? = some ends) :
    Outcome (replay r) w
      (fun _ w' => w.Offers (held x) ∧ ∃ X, w.Supplies x X ∧
        Wrote w (held x) r.result.joinedName
          (result (w.store.linkRows y.condition) y ends X).1
          (result (w.store.linkRows y.condition) y ends X).2 w')
      ¬w.Offers (held x) := by
  refine .after (a:=v) (t:=w) (by rw [Application.item,hi]; rfl) ?_
  refine .after (a:=(y,ends)) (t:=w) (by rw [replayedEdge_ok (by rw [hi]; rfl) hy he]; rfl) ?_
  refine Outcome.bind (outcome_withScratch ?_) fun _ w' hw' => .of_ok rfl hw'
  refine (((Within.start w).outcome_vertexTables hs hx).imp (fun _ _ h => h)
    not_offers_held).bind fun tables w₁ hw₁ => ?_
  obtain ⟨hx₁,h₁,-,X,hX,hXo,hXl⟩ := hw₁
  rw [List.nil_append] at h₁
  refine outcome_found y ends true hXo hXo fun found w₂ h₂ => ?_
  have g₂ := h₂.scratches
  rw [linkRows_congr h₁.store.data] at h₂
  refine (makes_temporary (Store.makes_distinct h₂.has.holds rfl)).bind fun remaining w₃ h₃ => ?_
  have g₃ := g₂.trans h₃.scratches
  refine (makes_temporary (Store.makes_edgeMatches (h₃.scratches.has h₂.has).holds rfl
    (by decide))).bind fun loops w₄ h₄ => ?_
  have g₄ := g₃.trans h₄.scratches
  have hr₄ := h₄.scratches.has h₃.has
  refine (makes_temporary (Store.makes_keepMatches (g₄.has hXo).holds hr₄.holds)).bind
    fun objects w₅ h₅ => ?_
  have g₅ := g₄.trans h₅.scratches
  refine (makes_temporary (Store.makes_keepMatches (g₅.has hXl).holds
    (h₅.scratches.has hr₄).holds)).bind fun oldLinks w₆ h₆ => ?_
  have g₆ := g₅.trans h₆.scratches
  have hloops := h₆.scratches.has (h₅.scratches.has h₄.has)
  refine (makes_temporary (Store.makes_unionTwo h₆.has.holds hloops.holds)).bind
    fun links w₇ h₇ => ?_
  have hobjects := h₇.scratches.has (h₆.scratches.has h₅.has)
  refine ((h₁.scratches (g₆.trans h₇.scratches)).outcome_replace hs hobjects h₇.has
    (h₁.fresh (g₄.made h₅)) (h₁.fresh (g₆.made h₇))
    (h₅.ne (h₆.scratches.made h₇))).imp (fun _ w' hw => ?_) False.elim
  exact ⟨offers_held.mpr hx₁,X,hX,hw⟩

end AbsorbSelfLoop

/-! ## Collapsing an edge -/

namespace CollapseEdge

/-- The pairs of matches that become new matches, with their numbers. -/
def pairs (bounds : Option Annotation) (found : Rows) : Rows :=
  Table.numberedRows <| match bounds with
    | some bounds => joined bounds found
    | none => Table.distinctRows [0,1] found

/-- The rows of the new matches. -/
def outcome (name : String) (found pairs : Rows) (source target : Rows × Rows) : Rows × Rows :=
  let numbered := Table.joinRows [0,1] [0,1] [(.left,2),(.right,2)] found pairs
  (moved 0 2 source.1 pairs ++ laid (moved 1 2 target.1 pairs),
    labelled name (Table.distinctRows [0,1] numbered) ++
      (laid (moved 0 2 source.2 pairs) ++ laid (moved 1 2 target.2 pairs)))

theorem makes_numberedPairs {i : TableId} {found : Rows}
    (h : w.Has i [Column.sourceMatch,Column.targetMatch,Column.linkId] found) :
    w.Makes (numberedPairs y i) [Column.sourceMatch,Column.targetMatch,Column.newMatch]
      (pairs y.bounds found) := by
  have hnumber : ∀ {j : TableId} {rows : Rows} {w₁ : Workspace},
      w.Made j [Column.sourceMatch,Column.targetMatch] rows w₁ →
      Outcome (do
          Store.addRowNumber j Column.newMatch
          return j : WorkStep TableId) w₁
        (fun j w₂ => w.Made j [Column.sourceMatch,Column.targetMatch,Column.newMatch]
          (Table.numberedRows rows) w₂) False := by
    intro j rows w₁ h₁
    refine (outcome_lift (Store.alters_addRowNumber h₁.has.holds (by decide))).bind
      fun _ w₂ h₂ => ?_
    obtain ⟨s,ha,rfl⟩ := h₂
    have hm : w.store.Made j _ _ w₁.store := ⟨h₁.scratches.store,h₁.fresh,h₁.has.bounded,h₁.has.holds⟩
    have hm' := hm.alters ha
    exact .of_ok rfl ⟨⟨h₁.scratches.registry,hm'.grows,h₁.scratches.scratch⟩,hm'.fresh,
      ⟨hm'.bounded,hm'.holds⟩⟩
  unfold numberedPairs pairs
  cases y.bounds with
  | some bounds => exact (makes_joinedPairs bounds h).bind fun j w₁ h₁ => hnumber h₁
  | none => exact (makes_temporary (Store.makes_distinct h.holds rfl)).bind fun j w₁ h₁ => hnumber h₁

/-- The rows of the vertex that an edge is collapsed into, from those of its ends. -/
def result (links : Rows) (x y : Item) (ends : EdgeEnds) (X Z : Rows × Rows) : Rows × Rows :=
  let source := if x.hasName ends.sourceName then X else Z
  let target := if x.hasName ends.sourceName then Z else X
  let found := linked ends.directed false links (named ends.sourceName source.1)
    (named ends.targetName target.1)
  outcome y.joinedName found (pairs y.bounds found) source target

theorem outcome_replay (hs : w.Sound) (hi : r.application.items = v :: e :: u :: rest)
    (hx : r.before.item? v = some x) (hy : r.before.item? e = some y)
    (hz : r.before.item? u = some z) (he : y.ends? = some ends) :
    Outcome (replay r) w
      (fun _ w' => (w.Offers (held x ++ held z) ∧
          r.result.joinedName ∉ w.registry.keys.filter (· ∉ held x ++ held z)) ∧
        ∃ X Z, w.Supplies x X ∧ w.Supplies z Z ∧
          Wrote w (held x ++ held z) r.result.joinedName
            (result (w.store.linkRows y.condition) x y ends X Z).1
            (result (w.store.linkRows y.condition) x y ends X Z).2 w')
      ¬(w.Offers (held x ++ held z) ∧
        r.result.joinedName ∉ w.registry.keys.filter (· ∉ held x ++ held z)) := by
  refine .after (a:=v) (t:=w) (by rw [Application.item,hi]; rfl) ?_
  refine .after (a:=u) (t:=w) (by rw [Application.item,hi]; rfl) ?_
  refine .after (a:=(y,ends)) (t:=w) (by rw [replayedEdge_ok (by rw [hi]; rfl) hy he]; rfl) ?_
  refine Outcome.bind (outcome_withScratch ?_) fun _ w' hw' => .of_ok rfl hw'
  refine outcome_bothTables hs hx hz fun lt rt w₂ X Z hoffers h₂ hX hZ hXo hXl hZo hZl => ?_
  refine .after (a:=x) (t:=w₂) (by rw [Query.item_of_some hx]; rfl) ?_
  generalize hst : (if x.hasName ends.sourceName = true then (lt,rt) else (rt,lt)) = st
  obtain ⟨source,target⟩ := st
  -- Which end is the kept vertex decides the columns alone.
  obtain ⟨S,T,hres,hSo,hSl,hTo,hTl⟩ : ∃ S T : Rows × Rows,
      (∀ links, result links x y ends X Z =
        (let found := linked ends.directed false links (named ends.sourceName S.1)
          (named ends.targetName T.1)
        outcome y.joinedName found (pairs y.bounds found) S T)) ∧
      w₂.Has source.objects Column.matched S.1 ∧ w₂.Has source.links Column.matched S.2 ∧
      w₂.Has target.objects Column.matched T.1 ∧ w₂.Has target.links Column.matched T.2 := by
    by_cases hn : x.hasName ends.sourceName = true
    · rw [if_pos hn] at hst
      cases hst
      exact ⟨X,Z,fun links => by rw [result,if_pos hn,if_pos hn],hXo,hXl,hZo,hZl⟩
    · rw [if_neg hn] at hst
      cases hst
      exact ⟨Z,X,fun links => by rw [result,if_neg hn,if_neg hn],hZo,hZl,hXo,hXl⟩
  refine outcome_found y ends false hSo hTo fun found w₅ h₅ => ?_
  have g₅ := h₅.scratches
  rw [linkRows_congr h₂.store.data] at h₅
  refine (makes_numberedPairs (y:=y) h₅.has).bind fun pairs w₆ h₆ => ?_
  have g₆ := g₅.trans h₆.scratches
  refine (makes_temporary (Store.makes_join (h₆.scratches.has h₅.has).holds h₆.has.holds rfl rfl
    rfl)).bind fun numbered w₇ h₇ => ?_
  have hp₇ := h₇.scratches.has h₆.has
  have g₇ := g₆.trans h₇.scratches
  refine (makes_temporary (Store.makes_edgeMatches h₇.has.holds rfl (by decide))).bind
    fun edgeRows w₈ h₈ => ?_
  have hp₈ := h₈.scratches.has hp₇
  have g₈ := g₇.trans h₈.scratches
  refine (makes_temporary (Store.makes_moveMatches (g₈.has hSo).holds hp₈.holds rfl rfl)).bind
    fun so w₉ h₉ => ?_
  have hp₉ := h₉.scratches.has hp₈
  have g₉ := g₈.trans h₉.scratches
  refine (makes_temporary (Store.makes_moveMatches (g₉.has hSl).holds hp₉.holds rfl rfl)).bind
    fun sl v₁ k₁ => ?_
  have hp₁ := k₁.scratches.has hp₉
  have g₁ := g₉.trans k₁.scratches
  refine (makes_temporary (Store.makes_moveMatches (g₁.has hTo).holds hp₁.holds rfl rfl)).bind
    fun tos v₂ k₂ => ?_
  have g₂ := g₁.trans k₂.scratches
  refine (makes_temporary (Store.makes_moveMatches (g₂.has hTl).holds
    (k₂.scratches.has hp₁).holds rfl rfl)).bind fun tls v₃ k₃ => ?_
  have g₃ := g₂.trans k₃.scratches
  have hso := k₃.scratches.has (k₂.scratches.has (k₁.scratches.has h₉.has))
  refine (makes_temporary (Store.makes_unionTwo hso.holds (k₃.scratches.has k₂.has).holds)).bind
    fun objects v₄ k₄ => ?_
  have g₃₄ := k₃.scratches.trans k₄.scratches
  have hsl := g₃₄.has (k₂.scratches.has k₁.has)
  have hedges := g₃₄.has (k₂.scratches.has (k₁.scratches.has (h₉.scratches.has h₈.has)))
  refine (makes_temporary (Store.makes_unionThree hedges.holds hsl.holds
    (k₄.scratches.has k₃.has).holds)).bind fun links v₅ k₅ => ?_
  have h₅ := h₂.scratches ((g₃.trans k₄.scratches).trans k₅.scratches)
  refine (h₅.outcome_put hs (k₅.scratches.has k₄.has) k₅.has (h₂.fresh (g₃.made k₄))
    (h₂.fresh ((g₃.trans k₄.scratches).made k₅)) (k₄.ne k₅)).imp (fun _ w' hw => ?_) fun hf hn => ?_
  · exact ⟨⟨hoffers,hw.1⟩,X,Z,hX,hZ,by rw [hres]; exact hw.2⟩
  · exact hn.2 hf

end CollapseEdge

/-! ## Absorbing an annotated vertex -/

namespace AbsorbAnnotatedVertex

/-- The matches that remain; they stand in the first column. -/
def remaining (min column : Nat) (pairs objects : Rows) : Rows :=
  if 0 < min then (Table.countRows [column] pairs).filter fun row =>
    Comparison.ge.holds (Table.cell row 1) (.int min)
  else Table.distinctRows [1] objects

/-- The rows of the vertex that remains, when its matches stand at one position of the pairs and
those of the absorbed vertex at the other. -/
def outcome (name : String) (min keptAt absorbedAt : Nat) (found pairs : Rows)
    (X Z : Rows × Rows) : Rows × Rows :=
  let remaining := remaining min keptAt pairs X.1
  let livePairs := Table.joinRows [keptAt] [0] [(.left,0),(.left,1)] pairs remaining
  let liveLinks := Table.joinRows [0,1] [0,1] [(.left,2),(.left,keptAt)] found livePairs
  let edges := labelled name (Table.distinctRows [0,1] liveLinks)
  (Table.distinctRows [0,1,2] (kept X.1 remaining ++ laid (moved absorbedAt keptAt Z.1 livePairs)),
    Table.distinctRows [0,1,2] (kept X.2 remaining ++
      (laid (moved absorbedAt keptAt Z.2 livePairs) ++ laid edges)))

/-- The rows of a vertex that absorbs an annotated one, from those of both. -/
def result (links : Rows) (x y z : Item) (ends : EdgeEnds) (X Z : Rows × Rows) : Rows × Rows :=
  let forward := x.hasName ends.sourceName
  let source := if forward then X else Z
  let target := if forward then Z else X
  let found := linked ends.directed false links (named ends.sourceName source.1)
    (named ends.targetName target.1)
  outcome y.joinedName ((z.bounds.bind Annotation.min).getD 0) (if forward then 0 else 1)
    (if forward then 1 else 0) found (joined (y.bounds.getD .unbounded) found) X Z

theorem outcome_survivors {a b : TableId} {pairs objects : Rows} {c : String} {n : Nat} (min : Nat)
    (ha : w.Has a [Column.sourceMatch,Column.targetMatch] pairs)
    (hb : w.Has b Column.matched objects)
    (hc : c = Column.sourceMatch ∧ n = 0 ∨ c = Column.targetMatch ∧ n = 1) :
    Outcome (survivors min a b c) w (fun found w' => ∃ cols,
      w.Made found.1 (found.2 :: cols) (remaining min n pairs objects) w') False := by
  unfold survivors remaining
  by_cases hm : 0 < min
  · rw [if_pos hm,if_pos hm]
    have hp : (Table.mk [Column.sourceMatch,Column.targetMatch] pairs).positions a [c] =
        .ok [n] := by
      rcases hc with ⟨rfl,rfl⟩|⟨rfl,rfl⟩ <;> rfl
    refine (makes_temporary (Store.makes_countBy ha.holds hp)).bind fun i w₁ h₁ => ?_
    have hcount : ∀ row, (Table.mk ([c] ++ [Column.count]) (Table.countRows [n] pairs)).satisfies i
        row (.columnValue Column.count .ge (.int min)) =
          .ok (Comparison.ge.holds (Table.cell row 1) (.int min)) := fun row => by
      refine Table.satisfies_columnValue .ge (.int min) ?_
      rcases hc with ⟨rfl,rfl⟩|⟨rfl,rfl⟩ <;> rfl
    refine (makes_temporary (Store.makes_filter h₁.has.holds hcount)).bind fun j w₂ h₂ => ?_
    exact .of_ok rfl ⟨[Column.count],h₁.scratches.made h₂⟩
  · rw [if_neg hm,if_neg hm]
    refine (makes_temporary (Store.makes_distinct hb.holds rfl)).bind fun j w₁ h₁ => ?_
    exact .of_ok rfl ⟨[],h₁⟩

/-- Where the two columns of pairs are that hold the matches of the vertex that remains and those of
the absorbed one. -/
def Sides (keptColumn absorbedColumn : String) (m n : Nat) : Prop :=
  keptColumn = Column.sourceMatch ∧ absorbedColumn = Column.targetMatch ∧ m = 0 ∧ n = 1 ∨
    keptColumn = Column.targetMatch ∧ absorbedColumn = Column.sourceMatch ∧ m = 1 ∧ n = 0

theorem Sides.kept {c d : String} {m n : Nat} (h : Sides c d m n) :
    c = Column.sourceMatch ∧ m = 0 ∨ c = Column.targetMatch ∧ m = 1 := by
  rcases h with ⟨h1,-,h2,-⟩|⟨h1,-,h2,-⟩
  · exact .inl ⟨h1,h2⟩
  · exact .inr ⟨h1,h2⟩

theorem Sides.positions {c d : String} {m n : Nat} (h : Sides c d m n) (i : TableId)
    (rows : Rows) :
    (Table.mk [Column.sourceMatch,Column.targetMatch] rows).position i d = .ok n ∧
      (Table.mk [Column.sourceMatch,Column.targetMatch] rows).position i c = .ok m := by
  rcases h with ⟨rfl,rfl,rfl,rfl⟩|⟨rfl,rfl,rfl,rfl⟩ <;> exact ⟨rfl,rfl⟩

/-- Which end the kept vertex is at decides the columns alone. -/
theorem exists_sides {xt zt source target : SubgraphTables} {c d : String} {X Z : Rows × Rows}
    (hst : (if x.hasName ends.sourceName = true then
        (xt,zt,Column.sourceMatch,Column.targetMatch)
      else (zt,xt,Column.targetMatch,Column.sourceMatch)) = (source,target,c,d))
    (hX : w.Has xt.objects Column.matched X.1) (hZ : w.Has zt.objects Column.matched Z.1) :
    ∃ (S T : Rows × Rows) (m n : Nat), Sides c d m n ∧
      w.Has source.objects Column.matched S.1 ∧ w.Has target.objects Column.matched T.1 ∧
      ∀ links, result links x y z ends X Z =
        (let found := linked ends.directed false links (named ends.sourceName S.1)
          (named ends.targetName T.1)
        outcome y.joinedName ((z.bounds.bind Annotation.min).getD 0) m n found
          (joined (y.bounds.getD .unbounded) found) X Z) := by
  by_cases hn : x.hasName ends.sourceName = true
  · rw [if_pos hn] at hst
    cases hst
    exact ⟨X,Z,0,1,.inl ⟨rfl,rfl,rfl,rfl⟩,hX,hZ,fun links => by simp only [result,if_pos hn]⟩
  · rw [if_neg hn] at hst
    cases hst
    exact ⟨Z,X,1,0,.inr ⟨rfl,rfl,rfl,rfl⟩,hZ,hX,fun links => by simp only [result,if_neg hn]⟩

/-- Work goes on with the pairs of which the kept match remains, and the links between them. -/
theorem outcome_live {α : Type} {pairs rest found : TableId} {P R L : Rows} {c column : String}
    {cols : List String} {m : Nat} (name : String)
    (hc : c = Column.sourceMatch ∧ m = 0 ∨ c = Column.targetMatch ∧ m = 1)
    (hP : w.Has pairs [Column.sourceMatch,Column.targetMatch] P)
    (hR : w.Has rest (column :: cols) R)
    (hL : w.Has found [Column.sourceMatch,Column.targetMatch,Column.linkId] L)
    {k : TableId → TableId → WorkStep α} {Q : α → Workspace → Prop} {F : Prop}
    (hk : ∀ livePairs edgeRows w', w.Scratches w' →
      w'.Has livePairs [Column.sourceMatch,Column.targetMatch]
        (Table.joinRows [m] [0] [(.left,0),(.left,1)] P R) →
      w'.Has edgeRows Column.matched (labelled name (Table.distinctRows [0,1]
        (Table.joinRows [0,1] [0,1] [(.left,2),(.left,m)] L
          (Table.joinRows [m] [0] [(.left,0),(.left,1)] P R)))) →
      Outcome (k livePairs edgeRows) w' Q F) :
    Outcome (do
      let livePairs ← temporary (Store.join pairs rest [(c,column)]
        [.left Column.sourceMatch Column.sourceMatch,.left Column.targetMatch Column.targetMatch])
      let liveLinks ← temporary (Store.join found livePairs
        [(Column.sourceMatch,Column.sourceMatch),(Column.targetMatch,Column.targetMatch)]
        [.left Column.linkId Column.linkId,.left c c])
      let edgeRows ← temporary (Store.edgeMatches liveLinks c name)
      k livePairs edgeRows) w Q F := by
  have hpairs : ∀ {i rows}, (Table.mk [Column.sourceMatch,Column.targetMatch] rows).positions i
      [c] = .ok [m] := by
    intro i rows
    rcases hc with ⟨rfl,rfl⟩|⟨rfl,rfl⟩ <;> rfl
  refine (makes_temporary (Store.makes_join (l:=[m]) (r:=[0]) (p:=[(.left,0),(.left,1)]) hP.holds
    hR.holds hpairs (by simp [Table.positions,Table.position,List.findIdx?_cons]) rfl)).bind
    fun livePairs w₁ h₁ => ?_
  refine (makes_temporary (Store.makes_join (p:=[(.left,2),(.left,m)]) (h₁.scratches.has hL).holds
    h₁.has.holds rfl rfl (by rcases hc with ⟨rfl,rfl⟩|⟨rfl,rfl⟩ <;> rfl))).bind
    fun liveLinks w₂ h₂ => ?_
  have g₂ := h₁.scratches.trans h₂.scratches
  refine (makes_temporary (Store.makes_edgeMatches (l:=0) (m:=1) h₂.has.holds
    (by rcases hc with ⟨rfl,rfl⟩|⟨rfl,rfl⟩ <;> rfl)
    (by rcases hc with ⟨rfl,rfl⟩|⟨rfl,rfl⟩ <;> decide))).bind fun edgeRows w₃ h₃ => ?_
  exact hk livePairs edgeRows w₃ (g₂.trans h₃.scratches)
    (h₃.scratches.has (h₂.scratches.has h₁.has)) h₃.has

/-- What remains of the kept vertex and what is joined to it becomes an entry. -/
theorem outcome_assembled {w' : Workspace} {taken : List String} {ko kl mo ml er : TableId}
    {O L A B E : Rows} {name : String} (h : Within w taken w') (hs : w.Sound)
    (hO : w'.Has ko Column.matched O) (hL : w'.Has kl Column.matched L)
    (hA : w'.Has mo Column.matched A) (hB : w'.Has ml Column.matched B)
    (hE : w'.Has er Column.matched E) :
    Outcome (do
        let objects ← temporary (Store.union [ko,mo])
        let links ← temporary (Store.union [kl,ml,er])
        let objects ← temporary (Store.distinct objects Column.matched)
        let links ← temporary (Store.distinct links Column.matched)
        let objects ← keep objects
        let links ← keep links
        put name objects (some links)) w'
      (fun _ w'' => name ∉ w.registry.keys.filter (· ∉ taken) ∧
        Wrote w taken name (Table.distinctRows [0,1,2] (O ++ laid A))
          (Table.distinctRows [0,1,2] (L ++ (laid B ++ laid E)))
          { w''.releaseScratch with scratch := w.scratch })
      (name ∈ w.registry.keys.filter (· ∉ taken)) := by
  refine ((makes_temporary (Store.makes_unionTwo hO.holds hA.holds)).imp (fun _ _ h => h)
    False.elim).bind fun objects w₁ h₁ => ?_
  have g₁ := h₁.scratches
  refine ((makes_temporary (Store.makes_unionThree (g₁.has hL).holds (g₁.has hB).holds
    (g₁.has hE).holds)).imp (fun _ _ h => h) False.elim).bind fun links w₂ h₂ => ?_
  have g₂ := g₁.trans h₂.scratches
  refine ((makes_temporary (Store.makes_distinct (p:=[0,1,2]) (h₂.scratches.has h₁.has).holds
    rfl)).imp (fun _ _ h => h) False.elim).bind fun finalObjects w₃ h₃ => ?_
  have g₃ := g₂.trans h₃.scratches
  refine ((makes_temporary (Store.makes_distinct (p:=[0,1,2]) (h₃.scratches.has h₂.has).holds
    rfl)).imp (fun _ _ h => h) False.elim).bind fun finalLinks w₄ h₄ => ?_
  exact (h.scratches (g₃.trans h₄.scratches)).outcome_put hs (h₄.scratches.has h₃.has) h₄.has
    (h.fresh (g₂.made h₃)) (h.fresh (g₃.made h₄)) (h₃.ne h₄)

theorem outcome_replay (hs : w.Sound) (hi : r.application.items = v :: e :: u :: rest)
    (hx : r.before.item? v = some x) (hy : r.before.item? e = some y)
    (hz : r.before.item? u = some z) (he : y.ends? = some ends) :
    Outcome (replay r) w
      (fun _ w' => (w.Offers (held x ++ held z) ∧
          r.result.joinedName ∉ w.registry.keys.filter (· ∉ held x ++ held z)) ∧
        ∃ X Z, w.Supplies x X ∧ w.Supplies z Z ∧
          Wrote w (held x ++ held z) r.result.joinedName
            (result (w.store.linkRows y.condition) x y z ends X Z).1
            (result (w.store.linkRows y.condition) x y z ends X Z).2 w')
      ¬(w.Offers (held x ++ held z) ∧
        r.result.joinedName ∉ w.registry.keys.filter (· ∉ held x ++ held z)) := by
  refine .after (a:=v) (t:=w) (by rw [Application.item,hi]; rfl) ?_
  refine .after (a:=u) (t:=w) (by rw [Application.item,hi]; rfl) ?_
  refine .after (a:=(y,ends)) (t:=w) (by rw [replayedEdge_ok (by rw [hi]; rfl) hy he]; rfl) ?_
  refine .after (a:=z) (t:=w) (by rw [Query.item_of_some hz]; rfl) ?_
  refine Outcome.bind (outcome_withScratch ?_) fun _ w' hw' => .of_ok rfl hw'
  refine outcome_bothTables hs hx hz fun xt zt w₂ X Z hoffers h₂ hX hZ hXo hXl hZo hZl => ?_
  refine .after (a:=x) (t:=w₂) (by rw [Query.item_of_some hx]; rfl) ?_
  generalize hst : (if x.hasName ends.sourceName = true then
      (xt,zt,Column.sourceMatch,Column.targetMatch)
    else (zt,xt,Column.targetMatch,Column.sourceMatch)) = st
  obtain ⟨source,target,keptColumn,absorbedColumn⟩ := st
  obtain ⟨S,T,m,n,hsides,hSo,hTo,hres⟩ := exists_sides (y:=y) hst hXo hZo
  refine outcome_found y ends false hSo hTo fun found w₅ h₅ => ?_
  have g₅ := h₅.scratches
  rw [linkRows_congr h₂.store.data] at h₅
  refine (makes_joinedPairs (y.bounds.getD .unbounded) h₅.has).bind fun pairs w₆ h₆ => ?_
  have g₆ := g₅.trans h₆.scratches
  refine Outcome.bind ((outcome_survivors ((z.bounds.bind Annotation.min).getD 0) h₆.has
    (g₆.has hXo) hsides.kept).imp (fun _ _ h => h) False.elim) fun rest w₇ hw₇ => ?_
  obtain ⟨remaining,column⟩ := rest
  obtain ⟨cols,h₇⟩ := hw₇
  refine outcome_live y.joinedName hsides.kept (h₇.scratches.has h₆.has) h₇.has
    (h₇.scratches.has (h₆.scratches.has h₅.has)) fun livePairs edgeRows w₈ g hlive hedges => ?_
  have g₈ := (g₆.trans h₇.scratches).trans g
  have hrest := g.has h₇.has
  refine (makes_temporary (Store.makes_keepMatches (g₈.has hXo).holds hrest.holds)).bind
    fun keptObjects v₁ k₁ => ?_
  have f₁ := k₁.scratches
  refine (makes_temporary (Store.makes_keepMatches ((g₈.trans f₁).has hXl).holds
    (f₁.has hrest).holds)).bind fun keptLinks v₂ k₂ => ?_
  have f₂ := f₁.trans k₂.scratches
  refine (makes_temporary (Store.makes_moveMatches ((g₈.trans f₂).has hZo).holds
    (f₂.has hlive).holds (hsides.positions _ _).1 (hsides.positions _ _).2)).bind
    fun movedObjects v₃ k₃ => ?_
  have f₃ := f₂.trans k₃.scratches
  refine (makes_temporary (Store.makes_moveMatches ((g₈.trans f₃).has hZl).holds
    (f₃.has hlive).holds (hsides.positions _ _).1 (hsides.positions _ _).2)).bind
    fun movedLinks v₄ k₄ => ?_
  have f₄ := f₃.trans k₄.scratches
  have e₃ := k₃.scratches.trans k₄.scratches
  refine (outcome_assembled (h₂.scratches (g₈.trans f₄)) hs
    (e₃.has (k₂.scratches.has k₁.has)) (e₃.has k₂.has) (k₄.scratches.has k₃.has) k₄.has
    (f₄.has hedges)).imp (fun _ w' hw => ?_) fun hf hn => ?_
  · exact ⟨⟨hoffers,hw.1⟩,X,Z,hX,hZ,by rw [hres]; exact hw.2⟩
  · exact hn.2 hf

end AbsorbAnnotatedVertex

/-! ## Enforcing a marker -/

namespace ApplyUpperLimit

/-- The rows of the matches that hold no more than some objects under a name. -/
def result (item : String) (max : Nat) (X : Rows × Rows) : Rows × Rows :=
  let instances := Table.distinctRows [1,0] (named item X.1)
  let excess := (Table.countRows [0] instances).filter fun row =>
    Comparison.gt.holds (Table.cell row 1) (.int max)
  (Table.antiJoinRows [1] [0] X.1 excess,Table.antiJoinRows [1] [0] X.2 excess)

theorem outcome_replay (hs : w.Sound) (hi : r.application.items = v :: rest)
    (hx : r.before.item? v = some x) {marker : Provenance} {max : Nat}
    (hp : x.provenance = some marker) (hm : marker.max = some max) :
    Outcome (replay r) w
      (fun _ w' => x.joinedName ∈ w.registry.keys ∧ ∃ X : Rows × Rows,
        w.Entry x.joinedName X.1 X.2 ∧
        Wrote w [] r.result.joinedName (result marker.item max X).1 (result marker.item max X).2 w')
      (x.joinedName ∉ w.registry.keys) := by
  refine .after (a:=v) (t:=w) (by rw [Application.item,hi]; rfl) ?_
  refine .after (a:=x) (t:=w) (by rw [Query.item_of_some hx]; rfl) ?_
  simp only [hp,hm]
  refine Outcome.bind (outcome_withScratch ?_) fun _ w' hw' => .of_ok rfl hw'
  have h₀ := Within.start w
  refine Outcome.bind (h₀.outcome_require hs x.joinedName) fun tables w₁ hw₁ => ?_
  obtain ⟨hk,rfl,O,L,hentry,ho,hl⟩ := hw₁
  refine (makes_rowsNamed marker.item ho).bind fun a w₂ h₂ => ?_
  refine (makes_temporary (Store.makes_distinct (p:=[1,0]) h₂.has.holds rfl)).bind
    fun instances w₃ h₃ => ?_
  have g₃ := h₂.scratches.trans h₃.scratches
  refine (makes_temporary (Store.makes_countBy (p:=[0]) h₃.has.holds rfl)).bind
    fun counts w₄ h₄ => ?_
  have g₄ := g₃.trans h₄.scratches
  refine (makes_temporary (Store.makes_filter h₄.has.holds
    fun row => Table.satisfies_columnValue .gt (.int max) rfl)).bind fun excess w₅ h₅ => ?_
  have g₅ := g₄.trans h₅.scratches
  refine (makes_temporary (Store.makes_antiJoin (l:=[1]) (r:=[0]) (g₅.has ho).holds h₅.has.holds
    rfl rfl)).bind fun objects w₆ h₆ => ?_
  have g₆ := g₅.trans h₆.scratches
  refine (makes_temporary (Store.makes_antiJoin (l:=[1]) (r:=[0]) (g₆.has hl).holds
    (h₆.scratches.has h₅.has).holds rfl rfl)).bind fun links w₇ h₇ => ?_
  have g₇ := g₆.trans h₇.scratches
  refine ((h₀.scratches g₇).outcome_replace hs (h₇.scratches.has h₆.has) h₇.has
    (h₀.fresh (g₅.made h₆)) (h₀.fresh (g₆.made h₇)) (h₆.ne h₇)).imp (fun _ w' hw => ?_) False.elim
  exact ⟨hk,(O,L),hentry,hw⟩

end ApplyUpperLimit

/-! ## Processing a constraint -/

namespace ProcessConstraint

/-- The values of an operand in every match, after the numbers of the matches. -/
def valuesOf (s : Store) (kind : SourceKind) (name : String) (attr : Option String)
    (rows : Rows) : Rows :=
  match attr with
  | none => Table.distinctRows [1,0] (named name rows)
  | some attr => Table.joinRows [0] [0] [(.left,1),(.right,1)] (named name rows)
      (s.attributeRows kind attr)

/-- The rows of values that satisfy a constraint, after the numbers of the matches. -/
def holding (s : Store) (kind : SourceKind) (operator : Comparison) (rows : Rows) :
    Operand → Operand → Rows
  | .item name attr, .literal value => (valuesOf s kind name attr rows).filter fun row =>
    operator.holds (Table.cell row 1) value
  | .literal value, .item name attr => (valuesOf s kind name attr rows).filter fun row =>
    operator.swapped.holds (Table.cell row 1) value
  | .item name attr, .item name' attr' =>
    (Table.joinRows [0] [0] [(.left,0),(.left,1),(.right,1)] (valuesOf s kind name attr rows)
      (valuesOf s kind name' attr' rows)).filter fun row =>
        operator.holds (Table.cell row 1) (Table.cell row 2)
  | .literal _, .literal _ => []

/-- The rows of the matches that satisfy a constraint. -/
def result (s : Store) (c : Constraint) (operator : Comparison) (X : Rows × Rows) : Rows × Rows :=
  let rows := if c.onEdges then X.2 else X.1
  let kind := if c.onEdges then SourceKind.link else SourceKind.object
  let remaining := Table.distinctRows [0] (holding s kind operator rows c.left c.right)
  (kept X.1 remaining,kept X.2 remaining)

theorem attributeRows_congr {s s' : Store} (h : s.SameData s') (kind : SourceKind)
    (attr : String) : s'.attributeRows kind attr = s.attributeRows kind attr := by
  rw [Store.attributeRows,Store.attributeRows]
  cases kind with
  | object => rw [Store.bearers,Store.bearers,h.objects]
  | link => rw [Store.bearers,Store.bearers,h.links]

theorem makes_operandValues {i : TableId} {rows : Rows} {c : String} (kind : SourceKind)
    (name : String) (attr : Option String) (hr : w.Has i Column.matched rows)
    (hc : c = Column.leftValue ∨ c = Column.rightValue) :
    w.Makes (operandValues i kind (.item name attr) c) [Column.subgraph,c]
      (valuesOf w.store kind name attr rows) := by
  unfold operandValues valuesOf
  refine (makes_rowsNamed name hr).bind fun a w₁ h₁ => ?_
  cases attr with
  | none =>
    refine (makes_temporary (Store.makes_distinct (p:=[1,0]) h₁.has.holds rfl)).bind
      fun ids w₂ h₂ => ?_
    have hrename : Outcome (Store.renameColumn ids Column.itemId c) w₂.store
        (fun _ s => w₂.store.Alters ids [Column.subgraph,c]
          (Table.distinctRows [1,0] (named name rows)) s) False := by
      rcases hc with rfl|rfl
      · exact Store.alters_renameColumn h₂.has.holds rfl
      · exact Store.alters_renameColumn h₂.has.holds rfl
    refine (outcome_lift hrename).bind fun _ w₃ hw₃ => ?_
    obtain ⟨s,ha,rfl⟩ := hw₃
    have hm : w₁.store.Made ids _ _ w₂.store :=
      ⟨h₂.scratches.store,h₂.fresh,h₂.has.bounded,h₂.has.holds⟩
    have hm' := hm.alters ha
    exact .of_ok rfl (h₁.scratches.made ⟨⟨h₂.scratches.registry,hm'.grows,h₂.scratches.scratch⟩,
      hm'.fresh,⟨hm'.bounded,hm'.holds⟩⟩)
  | some attr =>
    have hvalues : w₁.store.Makes (Store.attributeValues kind attr)
        [Column.bearerId,Column.bearerValue] (w₁.store.attributeRows kind attr) :=
      .after (get_apply _) (Store.makes_insertTable w₁.store ⟨_,_⟩)
    refine (makes_temporary hvalues).bind fun b w₂ h₂ => ?_
    rw [attributeRows_congr h₁.scratches.store.data] at h₂
    have g₂ := h₁.scratches.trans h₂.scratches
    exact (makes_temporary (Store.makes_join (p:=[(.left,1),(.right,1)])
      (h₂.scratches.has h₁.has).holds h₂.has.holds rfl rfl rfl)).imp
        (fun _ _ h₃ => g₂.made h₃) False.elim

theorem outcome_satisfying {i : TableId} {rows : Rows} (kind : SourceKind) (operator : Comparison)
    (left right : Operand) (hr : w.Has i Column.matched rows)
    (hc : ¬(left.isLiteral = true ∧ right.isLiteral = true)) :
    Outcome (satisfying i kind operator left right) w (fun j w' => ∃ cols,
      w.Made j (Column.subgraph :: cols) (holding w.store kind operator rows left right) w')
      False := by
  cases left with
  | item name attr =>
    cases right with
    | literal value =>
      refine (makes_operandValues kind name attr hr (.inl rfl)).bind fun a w₁ h₁ => ?_
      refine (makes_temporary (Store.makes_filter h₁.has.holds
        fun row => Table.satisfies_columnValue operator value rfl)).imp (fun j w₂ h₂ => ?_) False.elim
      exact ⟨_,h₁.scratches.made h₂⟩
    | item name' attr' =>
      refine (makes_operandValues kind name attr hr (.inl rfl)).bind fun a w₁ h₁ => ?_
      refine (makes_operandValues kind name' attr' (h₁.scratches.has hr) (.inr rfl)).bind
        fun b w₂ h₂ => ?_
      have g₂ := h₁.scratches.trans h₂.scratches
      refine (makes_temporary (Store.makes_join (p:=[(.left,0),(.left,1),(.right,1)])
        (h₂.scratches.has h₁.has).holds h₂.has.holds rfl rfl rfl)).bind fun paired w₃ h₃ => ?_
      have g₃ := g₂.trans h₃.scratches
      refine (makes_temporary (Store.makes_filter (p:=fun row =>
        operator.holds (Table.cell row 1) (Table.cell row 2)) h₃.has.holds fun row => rfl)).imp
        (fun j w₄ h₄ => ?_) False.elim
      have hsame : valuesOf w₁.store kind name' attr' rows = valuesOf w.store kind name' attr' rows := by
        cases attr' with
        | none => rfl
        | some attr => simp only [valuesOf,attributeRows_congr h₁.scratches.store.data]
      rw [hsame] at h₄
      exact ⟨_,g₃.made h₄⟩
  | literal value =>
    cases right with
    | literal value' => exact absurd ⟨rfl,rfl⟩ hc
    | item name attr =>
      refine (makes_operandValues kind name attr hr (.inr rfl)).bind fun a w₁ h₁ => ?_
      refine (makes_temporary (Store.makes_filter h₁.has.holds
        fun row => Table.satisfies_columnValue operator.swapped value rfl)).imp
        (fun j w₂ h₂ => ?_) False.elim
      exact ⟨_,h₁.scratches.made h₂⟩

theorem outcome_replay (hs : w.Sound) {c : Constraint} (hi : r.application.constraint = some c)
    {operator : Comparison} (ho : Comparison.ofKeyword? c.operator = some operator)
    (hb : operator.isBinary = true)
    (hc : ¬(c.left.isLiteral = true ∧ c.right.isLiteral = true)) :
    Outcome (replay r) w
      (fun _ w' => r.result.joinedName ∈ w.registry.keys ∧ ∃ X : Rows × Rows,
        w.Entry r.result.joinedName X.1 X.2 ∧
        Wrote w [] r.result.joinedName (result w.store c operator X).1
          (result w.store c operator X).2 w')
      (r.result.joinedName ∉ w.registry.keys) := by
  have hop : binaryOperator c = .ok operator := by
    rw [binaryOperator,ho,Option.filter_some,if_pos hb]
    rfl
  refine .after (a:=c) (t:=w) (by rw [Application.settled,hi]; rfl) ?_
  refine .after (a:=operator) (t:=w) (by rw [hop]; rfl) ?_
  refine Outcome.bind (outcome_withScratch ?_) fun _ w' hw' => .of_ok rfl hw'
  have h₀ := Within.start w
  refine Outcome.bind (h₀.outcome_require hs r.result.joinedName) fun tables w₁ hw₁ => ?_
  obtain ⟨hk,rfl,O,L,hentry,hO,hL⟩ := hw₁
  generalize hrows : (if c.onEdges = true then (tables.links,SourceKind.link)
    else (tables.objects,SourceKind.object)) = st
  obtain ⟨rows,kind⟩ := st
  obtain ⟨R,hres,hR⟩ : ∃ R : Rows, (result w.store c operator (O,L) =
        (let remaining := Table.distinctRows [0] (holding w.store kind operator R c.left c.right)
        (kept O remaining,kept L remaining))) ∧
      Has { store := w.store, registry := w.registry, scratch := [] } rows Column.matched R := by
    by_cases hn : c.onEdges = true
    · rw [if_pos hn] at hrows
      cases hrows
      exact ⟨L,by simp only [result,if_pos hn],hL⟩
    · rw [if_neg hn] at hrows
      cases hrows
      exact ⟨O,by simp only [result,if_neg hn],hO⟩
  refine Outcome.bind ((outcome_satisfying kind operator c.left c.right hR hc).imp
    (fun _ _ h => h) False.elim) fun values w₂ hw₂ => ?_
  obtain ⟨cols,h₂⟩ := hw₂
  refine (makes_temporary (Store.makes_distinct (p:=[0]) h₂.has.holds rfl)).bind
    fun remaining w₃ h₃ => ?_
  have g₃ := h₂.scratches.trans h₃.scratches
  refine (makes_temporary (Store.makes_keepMatches (g₃.has hO).holds h₃.has.holds)).bind
    fun objects w₄ h₄ => ?_
  have g₄ := g₃.trans h₄.scratches
  refine (makes_temporary (Store.makes_keepMatches (g₄.has hL).holds
    (h₄.scratches.has h₃.has).holds)).bind fun links w₅ h₅ => ?_
  have g₅ := g₄.trans h₅.scratches
  refine ((h₀.scratches g₅).outcome_replace hs (h₅.scratches.has h₄.has) h₅.has
    (h₀.fresh (g₃.made h₄)) (h₀.fresh (g₄.made h₅)) (h₄.ne h₅)).imp (fun _ w' hw => ?_) False.elim
  exact ⟨hk,(O,L),hentry,by rw [hres]; exact hw⟩

end ProcessConstraint

end Rule

end GraphPattern
